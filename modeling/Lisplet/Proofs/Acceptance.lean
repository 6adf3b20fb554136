import Lisplet.Proofs.Slots
import Mathlib.Data.List.Nodup

/-!
# What resolution accepts

The definitions of a program decide whether it can be resolved: all of them are
well formed, their names are different, one of them is `main`, and no parameter is
the name of a function or of another parameter. The order of the definitions does
not matter, and neither do the other nodes between them.
-/

namespace Lisplet

open Node

def Node.name? : Node → Option String
  | leaf l => l.name?
  | branch _ _ _ => none

/-! ## Parameters -/

/-- The parameters are different names, and none of them names a function. -/
def Definition.Accepted (functions : List String) (d : Definition) : Prop :=
  ∃ xs : List String, d.params.map Node.name? = xs.map some ∧ xs.Nodup ∧ ∀ x ∈ xs, x ∉ functions

section
variable {functions locals : Names}

theorem bindParam_of_name {n : Node} {x : String} (hx : n.name? = some x) (hf : x ∉ functions.toList)
    (hl : x ∉ locals.toList) : ∃ l, bindParam functions locals n = .ok (l, (locals.intern x).2) := by
  cases n with
  | branch _ _ _ => cases hx
  | leaf l =>
    have hx : l.name? = some x := hx
    have hf : functions.contains x = false := by simp [Names.contains, Names.find?_eq_none_iff.mpr hf]
    have hl : locals.contains x = false := by simp [Names.contains, Names.find?_eq_none_iff.mpr hl]
    simp [bindParam, hx, hf, hl]

theorem bindParams_ok_iff {ns : List Node} :
    (∃ r, bindParams functions locals ns = .ok r) ↔
      ∃ xs : List String, ns.map Node.name? = xs.map some ∧ xs.Nodup ∧
        ∀ x ∈ xs, x ∉ functions.toList ∧ x ∉ locals.toList := by
  induction ns generalizing locals with
  | nil => exact ⟨fun _ => ⟨[], by simp⟩, fun _ => ⟨_, rfl⟩⟩
  | cons n ns ih =>
    constructor
    · rintro ⟨r, h⟩
      rw [bindParams] at h
      split at h
      · cases h
      rename_i l' locals' hp
      split at h
      · cases h
      rename_i ns' locals'' hps
      obtain ⟨l, x, rfl, hx, hf, hnew, rfl, -⟩ := bindParam_inv hp
      obtain ⟨xs, hxs, hnodup, hfree⟩ := ih.mp ⟨_, hps⟩
      -- the first parameter is a local for those behind it, so they differ from it
      rw [Names.toList_intern, if_neg hnew] at hfree
      simp only [List.mem_append, List.mem_singleton, not_or] at hfree
      refine ⟨x :: xs, by simp [hxs, Node.name?, hx], ?_, ?_⟩
      · exact List.nodup_cons.mpr ⟨fun hmem => (hfree x hmem).2.2 rfl, hnodup⟩
      · intro y hy
        rcases List.mem_cons.mp hy with rfl | hy
        · exact ⟨Names.find?_eq_none_iff.mp hf, hnew⟩
        · exact ⟨(hfree y hy).1, (hfree y hy).2.1⟩
    · rintro ⟨xs, hxs, hnodup, hfree⟩
      cases xs with
      | nil => simp at hxs
      | cons x xs =>
        simp only [List.map_cons, List.cons.injEq] at hxs
        rw [List.nodup_cons] at hnodup
        obtain ⟨hf, hl⟩ := hfree x (by simp)
        obtain ⟨l, hp⟩ := bindParam_of_name hxs.1 hf hl
        have hrest : ∀ y ∈ xs, y ∉ functions.toList ∧ y ∉ (locals.intern x).2.toList := by
          intro y hy
          have hy' := hfree y (by simp [hy])
          have hne : y ≠ x := fun heq => hnodup.1 (heq ▸ hy)
          simp [Names.toList_intern, hl, hy', hne]
        obtain ⟨⟨ns', locals'⟩, hps⟩ := ih.mpr ⟨xs, hxs.2, hnodup.2, hrest⟩
        exact ⟨(.leaf l :: ns', locals'), by simp only [bindParams, hp, hps]⟩

theorem bind_ok_iff {d : Definition} {index : Nat} (hd : d.name.name? = some d.name.text)
    (hmem : d.name.text ∈ functions.toList) :
    (∃ r, d.bind functions index = .ok r) ↔ d.Accepted functions.toList := by
  obtain ⟨i, hi⟩ : ∃ i, functions.find? d.name.text = some i := by
    cases hi : functions.find? d.name.text with
    | some i => exact ⟨i, rfl⟩
    | none => exact absurd hmem (Names.find?_eq_none_iff.mp hi)
  have hempty : (bindLeaf functions {} d.name).2 = {} := by simp [bindLeaf, hd, hi]
  have hparams := @bindParams_ok_iff functions {} d.params
  have hnone : Names.toList {} = [] := rfl
  simp only [hnone, List.not_mem_nil, not_false_eq_true, and_true] at hparams
  rw [Definition.Accepted, ← hparams]
  constructor
  · rintro ⟨⟨n, count⟩, h⟩
    obtain ⟨params, locals, hp, -⟩ := Definition.bind_inv_eq h
    exact ⟨_, hempty ▸ hp⟩
  · rintro ⟨⟨params, locals⟩, hp⟩
    unfold Definition.bind
    simp only [hempty, hp]
    exact ⟨_, rfl⟩

end

/-! ## Definitions -/

def definitions (ns : List Node) : List Definition :=
  ns.filterMap fun n => (Definition.ofNode? n).bind Except.toOption

def definedNames (ns : List Node) : List String := (definitions ns).map fun d => d.name.text

theorem definition_declarationsFrom (form : Nat) (ns : List Node) :
    (declarationsFrom form ns).map Declaration.definition = definitions ns := by
  induction ns generalizing form with
  | nil => rfl
  | cons n ns ih =>
    rw [declarationsFrom, definitions, List.filterMap_cons]
    split
    · rename_i d hd
      simp only [hd, Option.bind_some, Except.toOption, List.map_cons, ih]
      rfl
    · rename_i hd
      have hnone : (Definition.ofNode? n).bind Except.toOption = none := by
        rcases h : Definition.ofNode? n with _ | (fault | d)
        · rfl
        · rfl
        · exact absurd h (hd d)
      rw [hnone, ih]
      rfl

theorem name_declarationsFrom (form : Nat) (ns : List Node) :
    (declarationsFrom form ns).map Declaration.name = definedNames ns := by
  rw [definedNames, ← definition_declarationsFrom form ns, List.map_map]
  rfl

theorem named_of_mem_definitions {ns : List Node} {d : Definition} (hd : d ∈ definitions ns) :
    d.name.name? = some d.name.text := by
  obtain ⟨n, -, hn⟩ := List.mem_filterMap.mp hd
  rcases h : Definition.ofNode? n with _ | (fault | d')
  · rw [h] at hn; cases hn
  · rw [h] at hn; cases hn
  · rw [h] at hn
    obtain rfl : d' = d := by simpa [Except.toOption] using hn
    exact (ofNode?_inv h).2.2

/-! ## Declaring -/

def Declared.all (d : Declared) : List Declaration := d.main.toList ++ d.others

theorem add_ok {d : Declared} {x : Declaration} (hmain : ∀ y ∈ d.main, y.name = mainName)
    (hnew : x.name ∉ d.all.map Declaration.name) : ∃ d', d.add x = .ok d' := by
  simp only [Declared.all, List.map_append, List.mem_append, not_or] at hnew
  unfold Declared.add
  dsimp only
  by_cases hx : x.name = mainName
  · rw [if_pos hx]
    cases hm : d.main with
    | none => exact ⟨_, rfl⟩
    | some y => simp [hm, hmain y hm, hx] at hnew
  · have hany : (d.others.any fun y => y.name == x.name) = false := by
      rw [Bool.eq_false_iff, ne_eq, List.any_eq_true]
      rintro ⟨y, hy, heq⟩
      exact hnew.2 (List.mem_map.mpr ⟨y, hy, by simpa using heq⟩)
    rw [if_neg hx, hany]
    exact ⟨_, rfl⟩

theorem all_of_add {d d' : Declared} {x : Declaration} (hd : d.Sound) (h : d.add x = .ok d') :
    d'.all.Perm (x :: d.all) := by
  obtain ⟨-, hm, ho⟩ := add_inv hd h
  rw [Declared.all, Declared.all, hm, ho]
  cases hx : x.isMain with
  | true => simp [hx]
  | false =>
    simp only [hx, List.filter_cons, List.filter_nil, Bool.false_eq_true, if_false, List.append_nil,
      Bool.not_false, if_true, ← List.append_assoc]
    exact List.perm_append_singleton x _

theorem main_of_add {d d' : Declared} {x : Declaration} (hd : d.Sound) (h : d.add x = .ok d')
    (hmain : ∀ y ∈ d.main, y.name = mainName) : ∀ y ∈ d'.main, y.name = mainName := by
  intro y hy
  obtain ⟨-, hm, -⟩ := add_inv hd h
  have hmem : y ∈ d'.main.toList := by simpa using hy
  rw [hm, List.mem_append, List.mem_filter] at hmem
  rcases hmem with hmem | ⟨-, hmem⟩
  · exact hmain y (by simpa using hmem)
  · simpa [Declaration.isMain] using hmem

theorem declareFrom_ok {form : Nat} {ns : List Node} {d : Declared} (hd : d.Sound)
    (hmain : ∀ y ∈ d.main, y.name = mainName)
    (hformed : ∀ n ∈ ns, n.headKeyword? = some .defun → ∃ d, Definition.ofNode? n = some (.ok d))
    (hnodup : (d.all.map Declaration.name ++ definedNames ns).Nodup) :
    ∃ d', declareFrom form d ns = .ok d' := by
  -- on the nodes; names already declared stay apart from those still to come
  induction ns generalizing form d with
  | nil => exact ⟨d, rfl⟩
  | cons n ns ih =>
    have hrest : ∀ m ∈ ns, m.headKeyword? = some .defun → ∃ d, Definition.ofNode? m = some (.ok d) :=
      fun m hm => hformed m (List.mem_cons_of_mem n hm)
    rw [declareFrom]
    rcases hn : Definition.ofNode? n with _ | (fault | definition)
    · refine ih hd hmain hrest ?_
      simpa [definedNames, definitions, hn] using hnodup
    · have hk : n.headKeyword? = some .defun := by
        by_contra hk
        rw [ofNode?_eq_none_iff.mpr hk] at hn
        cases hn
      obtain ⟨_, hok⟩ := hformed n (by simp) hk
      rw [hn] at hok
      cases hok
    · let x : Declaration := ⟨form, definition⟩
      have hnames : definedNames (n :: ns) = x.name :: definedNames ns := by
        simp [definedNames, definitions, hn, Except.toOption, x, Declaration.name]
      rw [hnames] at hnodup
      have hnew : x.name ∉ d.all.map Declaration.name := by
        intro hmem
        exact (List.nodup_append.mp hnodup).2.2 _ hmem _ (by simp) rfl
      obtain ⟨d', hadd⟩ := add_ok hmain hnew
      simp only [x] at hadd
      simp only [hadd]
      refine ih (add_inv hd hadd).1 (main_of_add hd hadd hmain) hrest ?_
      have hall := ((all_of_add hd hadd).map Declaration.name).append_right (definedNames ns)
      exact (hall.trans List.perm_middle.symm).nodup_iff.mpr hnodup

theorem declare_ok {ns : List Node}
    (hformed : ∀ n ∈ ns, n.headKeyword? = some .defun → ∃ d, Definition.ofNode? n = some (.ok d))
    (hnodup : (definedNames ns).Nodup) (hmain : mainName ∈ definedNames ns) (span : Span) :
    ∃ ds, declare ns span = .ok ds := by
  have hsound : Declared.Sound {} := ⟨by simp, by simp⟩
  obtain ⟨d, hd⟩ : ∃ d, declareFrom 0 {} ns = .ok d :=
    declareFrom_ok hsound (by simp) hformed (by simpa [Declared.all] using hnodup)
  obtain ⟨-, hm, -⟩ := declareFrom_spec hsound hd
  obtain ⟨main, hdm⟩ : ∃ main, d.main = some main := by
    rw [← name_declarationsFrom 0 ns] at hmain
    obtain ⟨x, hx, hname⟩ := List.mem_map.mp hmain
    have hmem : x ∈ d.main.toList := by
      rw [hm]
      exact List.mem_filter.mpr ⟨hx, by simpa [Declaration.isMain] using hname⟩
    exact ⟨x, by simpa using hmem⟩
  exact ⟨main :: d.others, by simp only [declare, hd, hdm]⟩

theorem perm_of_declare {ns : List Node} {span : Span} {ds : List Declaration}
    (h : declare ns span = .ok ds) : ds.Perm (declarationsFrom 0 ns) := by
  obtain ⟨-, hnames, hmem⟩ := declare_spec h
  refine (List.perm_ext_iff_of_nodup (List.Nodup.of_map _ hnames) ?_).mpr hmem
  refine (pairwise_declarationsFrom 0 ns).imp ?_
  rintro a _ hlt rfl
  exact Nat.lt_irrefl _ hlt

/-! ## Resolving -/

structure Resolvable (ns : List Node) : Prop where
  formed : ∀ n ∈ ns, n.headKeyword? = some .defun → ∃ d, Definition.ofNode? n = some (.ok d)
  different : (definedNames ns).Nodup
  main : mainName ∈ definedNames ns
  params : ∀ d ∈ definitions ns, d.Accepted (definedNames ns)

theorem bindFunctions_ok {names : Names} {ds : List Declaration}
    (h : ∀ d ∈ ds, ∀ index, ∃ r, d.definition.bind names index = .ok r) (index : Nat) (ns : List Node) :
    ∃ r, bindFunctions names index ns ds = .ok r := by
  induction ds generalizing index ns with
  | nil => exact ⟨_, rfl⟩
  | cons d ds ih =>
    obtain ⟨⟨form, count⟩, hbind⟩ := h d (by simp) index
    obtain ⟨⟨ns', fs⟩, hrest⟩ := ih (fun x hx => h x (by simp [hx])) (index + 1) (ns.set d.form form)
    simp only [bindFunctions, hbind, hrest]
    exact ⟨_, rfl⟩

theorem toList_functionNames {ns : List Node} {span : Span} {ds : List Declaration}
    (h : declare ns span = .ok ds) : (functionNames ds).toList.Perm (definedNames ns) := by
  obtain ⟨-, hnames, -⟩ := declare_spec h
  rw [functionNames, Names.toList_ofList hnames, ← name_declarationsFrom 0 ns]
  exact (perm_of_declare h).map Declaration.name

theorem Definition.Accepted.perm {names names' : List String} (h : names.Perm names') {d : Definition} :
    d.Accepted names ↔ d.Accepted names' := by
  simp only [Definition.Accepted, h.mem_iff]

theorem bind_ok_of_declare {ns : List Node} {span : Span} {ds : List Declaration}
    (h : declare ns span = .ok ds) {d : Declaration} (hd : d ∈ ds) (index : Nat) :
    (∃ r, d.definition.bind (functionNames ds) index = .ok r) ↔
      d.definition.Accepted (definedNames ns) := by
  have hnames := toList_functionNames h
  have hmem : d.definition ∈ definitions ns := by
    rw [← definition_declarationsFrom 0 ns]
    exact List.mem_map_of_mem ((perm_of_declare h).mem_iff.mp hd)
  have hfound : d.definition.name.text ∈ (functionNames ds).toList :=
    hnames.mem_iff.mpr (List.mem_map_of_mem hmem)
  rw [bind_ok_iff (named_of_mem_definitions hmem) hfound, Definition.Accepted.perm hnames]

theorem resolve_ok_iff {ns : List Node} {span : Span} {tag : Option Nat} :
    (∃ p, resolve (.branch ns span tag) = .ok p) ↔ Resolvable ns := by
  constructor
  · rintro ⟨p, h⟩
    obtain ⟨_, _, _, _, ds, hroot, -, hdecl, -, -, -, -, heach⟩ := resolve_table h
    cases hroot
    obtain ⟨declared, hfrom⟩ := declareFrom_of_declare hdecl
    obtain ⟨⟨main, hds, hmain⟩, hnames, -⟩ := declare_spec hdecl
    have hperm : (ds.map Declaration.name).Perm (definedNames ns) := by
      rw [← name_declarationsFrom 0 ns]
      exact (perm_of_declare hdecl).map Declaration.name
    refine ⟨fun n hn hk => definition_of_declareFrom hfrom hn hk, hperm.nodup_iff.mp hnames, ?_, ?_⟩
    · exact hperm.mem_iff.mp (List.mem_map.mpr ⟨main, by simp [hds], hmain⟩)
    · intro definition hmem
      rw [← definition_declarationsFrom 0 ns] at hmem
      obtain ⟨d, hd, rfl⟩ := List.mem_map.mp hmem
      have hd := (perm_of_declare hdecl).mem_iff.mpr hd
      obtain ⟨i, hi⟩ := List.mem_iff_getElem?.mp hd
      obtain ⟨form, count, hbind, -⟩ := heach i d hi
      exact (bind_ok_of_declare hdecl hd i).mp ⟨_, hbind⟩
  · intro h
    obtain ⟨ds, hdecl⟩ := declare_ok h.formed h.different h.main span
    have hbind : ∀ d ∈ ds, ∀ index, ∃ r, d.definition.bind (functionNames ds) index = .ok r := by
      intro d hd index
      refine (bind_ok_of_declare hdecl hd index).mpr (h.params _ ?_)
      rw [← definition_declarationsFrom 0 ns]
      exact List.mem_map_of_mem ((perm_of_declare hdecl).mem_iff.mp hd)
    obtain ⟨⟨ns', fs⟩, hfs⟩ := bindFunctions_ok hbind 0 ns
    unfold resolve
    simp only [hdecl, hfs]
    exact ⟨_, rfl⟩

/-! ## Rearranged nodes -/

def Node.isDefinition (n : Node) : Bool := n.headKeyword? = some .defun

/-- `ns'` is `ns` in another order, with some nodes added and some removed that are no
definitions. -/
def Rearranged (ns ns' : List Node) : Prop :=
  ∃ added removed : List Node, (∀ n ∈ added, n.isDefinition = false) ∧
    (∀ n ∈ removed, n.isDefinition = false) ∧ (ns ++ added).Perm (ns' ++ removed)

theorem definitions_filter (ns : List Node) : definitions (ns.filter Node.isDefinition) = definitions ns := by
  rw [definitions, definitions, List.filterMap_filter]
  congr 1
  funext n
  by_cases hn : n.isDefinition = true
  · rw [if_pos hn]
  · have hk : n.headKeyword? ≠ some .defun := by simpa [Node.isDefinition] using hn
    rw [if_neg hn, ofNode?_eq_none_iff.mpr hk]
    rfl

namespace Rearranged

variable {ns ns' : List Node} (h : Rearranged ns ns')
include h

theorem filter : (ns.filter Node.isDefinition).Perm (ns'.filter Node.isDefinition) := by
  obtain ⟨added, removed, hadded, hremoved, hperm⟩ := h
  have hfilter := hperm.filter Node.isDefinition
  have hnone : added.filter Node.isDefinition = [] := by simpa using hadded
  have hnone' : removed.filter Node.isDefinition = [] := by simpa using hremoved
  rwa [List.filter_append, List.filter_append, hnone, hnone', List.append_nil, List.append_nil] at hfilter

theorem definitions : (definitions ns).Perm (definitions ns') := by
  rw [← definitions_filter ns, ← definitions_filter ns']
  exact h.filter.filterMap _

theorem names : (definedNames ns).Perm (definedNames ns') := h.definitions.map _

theorem resolvable (hr : Resolvable ns) : Resolvable ns' := by
  refine ⟨?_, h.names.nodup_iff.mp hr.different, h.names.mem_iff.mp hr.main, ?_⟩
  · intro n hn hk
    have hmem : n ∈ ns.filter Node.isDefinition :=
      h.filter.mem_iff.mpr (List.mem_filter.mpr ⟨hn, by simpa [Node.isDefinition] using hk⟩)
    exact hr.formed n (List.mem_filter.mp hmem).1 hk
  · intro d hd
    exact (Definition.Accepted.perm h.names).mp (hr.params d (h.definitions.mem_iff.mpr hd))

end Rearranged

end Lisplet
