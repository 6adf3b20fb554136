import Lisplet.Proofs.Named
import Lisplet.Proofs.Resolution

/-!
# Procedures and functions

A tree and the program resolved from it, both loaded. The functions of the
program are the procedures of the tree: a name is defined in one exactly if it
has an index in the other, and the bodies differ only in that names are bound.
-/

namespace Lisplet

open Node Named

/-! ## Leaves that differ in annotations -/

theorem Leaf.Reloaded.alike {l l' : Leaf} (h : l.Reloaded l') : l.Alike l' := ⟨h.token, h.kind⟩

theorem Leaf.Alike.name?_eq {l l' : Leaf} (h : l.Alike l') : l'.name? = l.name? := by
  simp only [Leaf.name?, Leaf.text, h.token, h.kind]

theorem Leaf.Alike.text_eq {l l' : Leaf} (h : l.Alike l') : l'.text = l.text := by
  simp only [Leaf.text, h.token]

theorem Leaf.Alike.span_eq {l l' : Leaf} (h : l.Alike l') : l'.span = l.span := by
  simp only [Leaf.span, h.token]

theorem loadsAlike_alike : LoadsAlike Leaf.Alike := by
  rintro h ⟨t, kind, b, c⟩ ⟨t', kind', b', c'⟩ ⟨ht, hk⟩
  cases hk
  cases kind <;> exact ⟨rfl, ht, rfl⟩

theorem loadsAlike_bound (functions locals : Names) : LoadsAlike (Leaf.Bound functions locals) := by
  rintro h ⟨t, kind, b, c⟩ ⟨t', kind', b', c'⟩ hl
  obtain rfl : kind' = kind := hl.kind
  cases kind' with
  | str text => exact ⟨rfl, hl.token, rfl, rfl, hl.unnamed, hl.function, hl.slot⟩
  | _ => exact ⟨rfl, hl⟩

/-! ## Definitions in alike trees -/

theorem defined?_inv {x : String} {n : Node} {f : Procedure} (h : defined? x n = some f) :
    ∃ head l prototype ptag span tag,
      n = .branch (head :: .branch (.leaf l :: f.params) prototype ptag :: f.body) span tag ∧
      head.keyword? = some .defun ∧ l.name? = some x ∧ f.span = l.span := by
  unfold defined? at h
  split at h
  · rename_i head l params prototype ptag body span tag
    split at h
    · rename_i hx
      cases h
      exact ⟨head, l, prototype, ptag, span, tag, rfl, hx.1, hx.2, rfl⟩
    · cases h
  · cases h

theorem defined?_of_ofNode? {n : Node} {d : Definition} (h : Definition.ofNode? n = some (.ok d)) :
    defined? d.name.text n = some ⟨d.params, d.body, d.name.span⟩ := by
  obtain ⟨⟨ptag, tag, rfl⟩, hk, hn⟩ := ofNode?_inv h
  simp only [defined?, hk, hn, and_self, if_true]

theorem ofNode?_of_defined? {x : String} {n : Node} {f : Procedure} (h : defined? x n = some f) :
    ∃ d, Definition.ofNode? n = some (.ok d) ∧ d.name.text = x := by
  obtain ⟨head, l, prototype, ptag, span, tag, rfl, hk, hx, -⟩ := defined?_inv h
  refine ⟨⟨head, l, f.params, prototype, f.body, span⟩, ?_, ?_⟩
  · simp only [Definition.ofNode?, hk, hx, if_true, Option.isSome_some]
  · unfold Leaf.name? at hx
    split at hx
    · exact Option.some.inj hx
    · cases hx

/-- A definition does not depend on annotations. -/
theorem defined?_alike {x : String} {n n' : Node} {f : Procedure} (h : Related Leaf.Alike n n')
    (hf : defined? x n = some f) :
    ∃ f', defined? x n' = some f' ∧ f'.span = f.span ∧ f'.body = n'.children.drop 2 ∧
      RelatedAll Leaf.Alike f.params f'.params := by
  obtain ⟨head, l, prototype, ptag, span, tag, rfl, hk, hx, hspan⟩ := defined?_inv hf
  obtain ⟨head', rest', tag', rfl, hhead, hrest⟩ := related_cons_inv h
  obtain ⟨proto', body', rfl, hproto, -⟩ := relatedAll_cons_inv hrest
  obtain ⟨name', params', ptag', rfl, hname, hparams⟩ := related_cons_inv hproto
  obtain ⟨l', rfl, hl⟩ := related_leaf_inv hname
  refine ⟨⟨params', body', l'.span⟩, ?_, ?_, rfl, hparams⟩
  · simp only [defined?, hhead.keyword?_eq Leaf.Alike.kind, hk, hl.name?_eq, hx, and_self, if_true]
  · exact hl.span_eq.trans hspan.symm

/-! ## Loaded programs -/

/-- A function against a procedure: `locals` numbers the names of the body. -/
structure Function.Implements (f : Function) (functions locals : Names) (g : Procedure)
    (body : List Node) : Prop where
  arity : f.arity = g.params.length
  slots : f.locals = locals.size
  fits : f.arity ≤ f.locals
  span : f.span = g.span
  params : ∀ (j : Nat) (m : Node), g.params[j]? = some m →
    ∃ x, nameOf? m = some x ∧ locals.find? x = some j
  body : RelatedAll (Leaf.Bound functions locals) g.body body

structure Linked (functions : Names) (n : Named.Code) (c : Code) : Prop where
  limit : c.limit = n.limit
  main : functions.find? mainName = some 0
  undefined : ∀ x, functions.find? x = none → n.procedure? x = none
  defined : ∀ x i, functions.find? x = some i → ∃ f g locals, c.program.function? i = some f ∧
    f.name = x ∧ n.procedure? x = some g ∧ f.Implements functions locals g (c.program.body i)

variable {functions : Names} {root : Node} {p : Program}

/-- Forms at the same place are loaded into the same heap. -/
theorem Resolved.loaded_form (h : Resolved functions root p) {j : Nat} {n n' : Node}
    (hn : root.children[j]? = some n) (hn' : p.root.children[j]? = some n') :
    ∃ heap, (loadNode {} root).1.children[j]? = some (loadNode heap n).1 ∧
      (loadNode {} p.root).1.children[j]? = some (loadNode heap n').1 := by
  refine ⟨(loadAll {} (root.children.take j)).2, ?_, ?_⟩
  · rw [children_loadNode, getElem?_loadAll {} hn]
  · rw [children_loadNode, getElem?_loadAll {} hn',
      (RelatedAll.load loadsAlike_alike {} (h.alike.children.take j)).1]

/-- A name that a loaded form defines is the name of the function with that form. -/
theorem Resolved.function_of_defined (h : Resolved functions root p) {j : Nat} {n : Node}
    {x : String} {g : Procedure} (hn : (loadNode {} root).1.children[j]? = some n)
    (hg : defined? x n = some g) : ∃ i f, p.function? i = some f ∧ f.form = j ∧ f.name = x := by
  have hj : j < root.children.length := by
    have := (List.getElem?_eq_some_iff.mp hn).1
    rwa [children_loadNode, length_loadAll] at this
  have hread := List.getElem?_eq_getElem hj
  have hload := getElem?_loadAll {} hread
  rw [← children_loadNode, hn] at hload
  have hback : Related Leaf.Alike n root.children[j] := by
    rw [Option.some.inj hload]
    exact Related.symm (fun _ _ hl => ⟨hl.token.symm, hl.kind.symm⟩) (reloaded_loadNode _ _)
  obtain ⟨g', hg', -⟩ := defined?_alike hback hg
  obtain ⟨d, hd, rfl⟩ := ofNode?_of_defined? hg'
  obtain ⟨i, f, hf, rfl⟩ := h.complete j _ d hread hd
  obtain ⟨locals, m, m', d', hm, -, hres⟩ := h.functions i f hf
  rw [hread] at hm; cases hm
  have hdd := hres.definition
  rw [hd] at hdd; cases hdd
  exact ⟨i, f, hf, rfl, hres.name⟩

/-- A function implements the procedure that its own form defines. -/
theorem Resolved.implements (h : Resolved functions root p) {i : Nat} {f : Function}
    (hf : p.function? i = some f) :
    ∃ n g locals, (loadNode {} root).1.children[f.form]? = some n ∧ defined? f.name n = some g ∧
      f.Implements functions locals g (p.load.1.body i) := by
  obtain ⟨locals, n, n', d, hn, hn', hres⟩ := h.functions i f hf
  obtain ⟨heap, hload, hload'⟩ := h.loaded_form hn hn'
  have halike : Related Leaf.Alike n (loadNode heap n).1 :=
    (reloaded_loadNode heap n).mono fun _ _ => Leaf.Reloaded.alike
  obtain ⟨g, hg, hspan, hbody, hparams⟩ := defined?_alike halike (defined?_of_ofNode? hres.definition)
  refine ⟨_, g, locals, hload, hres.name ▸ hg, ?_, hres.slots, hres.fits, ?_, ?_, ?_⟩
  · rw [hres.arity, hparams.length_eq]
  · rw [hres.span, hspan]
  · intro j m' hm'
    have hj : j < d.params.length := by
      rw [← hparams.length_eq]
      exact (List.getElem?_eq_some_iff.mp hm').1
    have hm := List.getElem?_eq_getElem hj
    obtain ⟨l, x, hleaf, hx, hfind⟩ := hres.params j _ hm
    have hrel := hparams.getElem? hm hm'
    rw [hleaf] at hrel
    obtain ⟨l', rfl, hl⟩ := related_leaf_inv hrel
    exact ⟨x, hl.name?_eq.trans hx, hfind⟩
  · have hbound := (Related.load (loadsAlike_bound functions locals) heap hres.bound).2
    have hdrop : p.load.1.body i = (loadNode heap n').1.children.drop 2 := by
      have hf' : p.load.1.function? i = some f := hf
      have hroot : p.load.1.root.children[f.form]? = some (loadNode heap n').1 := hload'
      simp only [Program.body, hf', hroot]
    rw [hbody, hdrop]
    exact hbound.children.drop 2

/-- No other form defines the name of a function. -/
theorem Resolved.procedure?_eq (h : Resolved functions root p) {i : Nat} {f : Function} {n : Node}
    {g : Procedure} (hf : p.function? i = some f)
    (hn : (loadNode {} root).1.children[f.form]? = some n) (hg : defined? f.name n = some g)
    (limit : Option Nat) :
    Named.Code.procedure? ⟨(loadNode {} root).1, limit⟩ f.name = some g := by
  unfold Named.Code.procedure?
  cases hs : (loadNode {} root).1.children.findSome? (defined? f.name) with
  | none =>
    have hnone := List.findSome?_eq_none_iff.mp hs n (List.mem_of_getElem? hn)
    rw [hg] at hnone
    cases hnone
  | some g' =>
    -- the form found first belongs to a function of this name, and there is one only
    obtain ⟨m, hm, hg'⟩ := List.exists_of_findSome?_eq_some hs
    obtain ⟨j, hj⟩ := List.mem_iff_getElem?.mp hm
    obtain ⟨i', f', hf', rfl, hname⟩ := h.function_of_defined hj hg'
    have hi := (h.table f.name i).mpr ⟨f, hf, rfl⟩
    have hi' := (h.table f.name i').mpr ⟨f', hf', hname⟩
    rw [hi] at hi'; cases hi'
    rw [hf] at hf'; cases hf'
    rw [hn] at hj; cases hj
    rw [← hg', hg]

theorem Resolved.linked (h : Resolved functions root p) (limit : Option Nat) :
    Linked functions ⟨(loadNode {} root).1, limit⟩ ⟨p.load.1, limit⟩ := by
  refine ⟨rfl, h.main, ?_, ?_⟩
  · intro x hx
    refine List.findSome?_eq_none_iff.mpr ?_
    intro n hn
    cases hg : defined? x n with
    | none => rfl
    | some g =>
      obtain ⟨j, hj⟩ := List.mem_iff_getElem?.mp hn
      obtain ⟨i, f, hf, -, hname⟩ := h.function_of_defined hj hg
      rw [(h.table x i).mpr ⟨f, hf, hname⟩] at hx
      cases hx
  · intro x i hi
    obtain ⟨f, hf, rfl⟩ := (h.table x i).mp hi
    obtain ⟨n, g, locals, hn, hg, himpl⟩ := h.implements hf
    exact ⟨f, g, locals, hf, rfl, h.procedure?_eq hf hn hg limit, himpl⟩

end Lisplet
