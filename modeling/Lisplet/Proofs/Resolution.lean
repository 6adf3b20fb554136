import Lisplet.Program.Resolve
import Lisplet.Proofs.Leaves
import Lisplet.Proofs.Names

/-!
# What resolution does

A resolved tree is the tree that was read, with every name inside a definition
bound to the function of that name or else to its slot; the slots are numbered
by first use, and the parameters come first. `Resolved` collects what the stages
after resolution rely on.
-/

namespace Lisplet

/-! ## Bound leaves -/

/-- `l'` is `l` bound: a name of `functions` to its function, any other name to
its slot in `locals`, and nothing else to anything. -/
structure Leaf.Bound (functions locals : Names) (l l' : Leaf) : Prop where
  token : l'.token = l.token
  kind : l'.kind = l.kind
  cell : l'.cell = l.cell
  unnamed : l.name? = none → l'.binding = none
  function : ∀ x i, l.name? = some x → functions.find? x = some i → l'.binding = some (.function i)
  slot : ∀ x, l.name? = some x → functions.find? x = none →
    ∃ k, locals.find? x = some k ∧ l'.binding = some (.slot k)

def Leaf.OnlyNameBound (l : Leaf) : Prop := l.name? = none → l.binding = none

theorem Leaf.Bound.mono {functions locals locals' : Names} (h : locals.toList <+: locals'.toList)
    (l l' : Leaf) (hl : l.Bound functions locals l') : l.Bound functions locals' l' := by
  refine ⟨hl.token, hl.kind, hl.cell, hl.unnamed, hl.function, ?_⟩
  intro x hx hf
  obtain ⟨k, hk, hb⟩ := hl.slot x hx hf
  exact ⟨k, Names.find?_of_prefix h hk, hb⟩

open Node

section
variable {functions : Names}

theorem bindLeaf_extends (locals : Names) (l : Leaf) :
    locals.toList <+: (bindLeaf functions locals l).2.toList := by
  unfold bindLeaf
  cases l.name? with
  | none => exact List.prefix_rfl
  | some name =>
    dsimp only
    cases functions.find? name with
    | some i => exact List.prefix_rfl
    | none => exact Names.prefix_intern locals name

mutual

/-- Binding numbers further names and leaves the numbers of the others alone. -/
theorem bindNode_extends : ∀ (locals : Names) (n : Node),
    locals.toList <+: (bindNode functions locals n).2.toList
  | locals, .leaf l => bindLeaf_extends locals l
  | locals, .branch cs _ _ => bindAll_extends locals cs

theorem bindAll_extends : ∀ (locals : Names) (ns : List Node),
    locals.toList <+: (bindAll functions locals ns).2.toList
  | _, [] => List.prefix_rfl
  | locals, n :: ns =>
    (bindNode_extends locals n).trans (bindAll_extends (bindNode functions locals n).2 ns)

end

theorem bindLeaf_spec (locals : Names) {l : Leaf} (hl : l.OnlyNameBound) :
    l.Bound functions (bindLeaf functions locals l).2 (bindLeaf functions locals l).1 := by
  unfold bindLeaf
  cases hname : l.name? with
  | none =>
    refine ⟨rfl, rfl, rfl, fun _ => hl hname, ?_, ?_⟩
    · intro x i hx; rw [hname] at hx; cases hx
    · intro x hx; rw [hname] at hx; cases hx
  | some name =>
    dsimp only
    cases hf : functions.find? name with
    | some i =>
      refine ⟨rfl, rfl, rfl, ?_, ?_, ?_⟩
      · intro hx; rw [hname] at hx; cases hx
      · intro x j hx hj
        rw [hname] at hx; cases hx
        rw [hf] at hj; cases hj
        rfl
      · intro x hx hn
        rw [hname] at hx; cases hx
        rw [hf] at hn; cases hn
    | none =>
      refine ⟨rfl, rfl, rfl, ?_, ?_, ?_⟩
      · intro hx; rw [hname] at hx; cases hx
      · intro x j hx hj
        rw [hname] at hx; cases hx
        rw [hf] at hj; cases hj
      · intro x hx _
        rw [hname] at hx; cases hx
        exact ⟨_, Names.find?_intern locals name, rfl⟩

mutual

theorem bindNode_spec : ∀ (locals : Names) {n : Node}, n.All Leaf.OnlyNameBound →
    Related (Leaf.Bound functions (bindNode functions locals n).2) n (bindNode functions locals n).1
  | locals, .leaf _, h => bindLeaf_spec locals h
  | locals, .branch _ _ _, h => ⟨rfl, bindAll_spec locals h⟩

theorem bindAll_spec : ∀ (locals : Names) {ns : List Node}, AllIn Leaf.OnlyNameBound ns →
    RelatedAll (Leaf.Bound functions (bindAll functions locals ns).2) ns
      (bindAll functions locals ns).1
  | _, [], _ => trivial
  | locals, n :: ns, h => by
    have hn := bindNode_spec locals h.1
    have hns := bindAll_spec (bindNode functions locals n).2 h.2
    exact ⟨hn.mono (Leaf.Bound.mono (bindAll_extends _ ns)), hns⟩

end

/-! ## Parameters -/

theorem bindParam_inv {locals locals' : Names} {n : Node} {l' : Leaf}
    (h : bindParam functions locals n = .ok (l', locals')) :
    ∃ l x, n = .leaf l ∧ l.name? = some x ∧ functions.find? x = none ∧ x ∉ locals.toList ∧
      locals' = (locals.intern x).2 ∧ l' = { l with binding := some (.slot (locals.intern x).1) } := by
  unfold bindParam at h
  split at h
  · cases h
  · rename_i l
    split at h
    · cases h
    · rename_i x hx
      split at h
      · cases h
      · rename_i hf
        split at h
        · cases h
        · rename_i hl
          cases h
          refine ⟨l, x, rfl, hx, ?_, ?_, rfl, rfl⟩
          · simpa [Names.contains] using hf
          · simpa [Names.contains, Names.find?_eq] using hl

/-- Parameters are different names that name no function, and they get the next
slots in their order. -/
theorem bindParams_spec {ns ns' : List Node} {locals locals' : Names}
    (h : bindParams functions locals ns = .ok (ns', locals')) :
    locals.toList <+: locals'.toList ∧ locals'.size = locals.size + ns.length ∧
      RelatedAll (Leaf.Bound functions locals') ns ns' ∧
      ∀ j n, ns[j]? = some n →
        ∃ l x, n = .leaf l ∧ l.name? = some x ∧ locals'.find? x = some (locals.size + j) := by
  induction ns generalizing ns' locals with
  | nil =>
    cases h
    exact ⟨List.prefix_rfl, rfl, trivial, fun j n hn => by simp at hn⟩
  | cons n ns ih =>
    rw [bindParams] at h
    split at h
    · cases h
    · rename_i l' locals₁ hp
      split at h
      · cases h
      · rename_i ns₁ locals₂ hps
        cases h
        obtain ⟨l, x, rfl, hx, hf, hnew, rfl, rfl⟩ := bindParam_inv hp
        obtain ⟨hpre, hsize, hrel, hnum⟩ := ih hps
        have hfind := Names.find?_intern locals x
        have hk : (locals.intern x).1 = locals.size := by
          simp [Names.intern, Names.find?_eq_none_iff.mpr hnew]
        have hlist : (locals.intern x).2.toList = locals.toList ++ [x] := by
          rw [Names.toList_intern, if_neg hnew]
        have hsize₁ : (locals.intern x).2.size = locals.size + 1 := by
          rw [Names.size_eq, hlist, Names.size_eq]; simp
        refine ⟨(Names.prefix_intern locals x).trans hpre, ?_, ⟨?_, hrel⟩, ?_⟩
        · rw [hsize, hsize₁, List.length_cons]; omega
        · refine ⟨rfl, rfl, rfl, ?_, ?_, ?_⟩
          · intro hnone; rw [hx] at hnone; cases hnone
          · intro y i hy hi
            rw [hx] at hy; cases hy
            rw [hf] at hi; cases hi
          · intro y hy _
            rw [hx] at hy; cases hy
            exact ⟨_, Names.find?_of_prefix hpre hfind, rfl⟩
        · intro j n hn
          cases j with
          | zero =>
            simp at hn; subst hn
            refine ⟨l, x, rfl, hx, ?_⟩
            rw [Names.find?_of_prefix hpre hfind, hk]; rfl
          | succ j =>
            obtain ⟨l₁, y, rfl, hy, hfy⟩ := hnum j n (by simpa using hn)
            refine ⟨l₁, y, rfl, hy, ?_⟩
            rw [hfy, hsize₁]; congr 1; omega

end

/-! ## Definitions -/

theorem ofNode?_inv {n : Node} {d : Definition} (h : Definition.ofNode? n = some (.ok d)) :
    (∃ ptag tag, n = .branch (d.head :: .branch (.leaf d.name :: d.params) d.prototype ptag :: d.body)
      d.span tag) ∧ d.head.keyword? = some .defun ∧ d.name.name? = some d.name.text := by
  unfold Definition.ofNode? at h
  split at h
  · cases h
  · cases h
  · rename_i head rest span tag
    split at h
    · rename_i hk
      rw [Option.some.injEq] at h
      split at h
      · cases h
      · cases h
      · rename_i name params prototype ptag body
        split at h
        · rename_i hn
          cases h
          refine ⟨⟨ptag, tag, rfl⟩, hk, ?_⟩
          dsimp only
          unfold Leaf.name? at hn ⊢
          split at hn
          · rfl
          · cases hn
        · cases h
      · cases h
    · cases h

theorem params_le_of_bind {functions : Names} {index : Nat} {d : Definition} {form : Node}
    {count : Nat} (h : d.bind functions index = .ok (form, count)) : d.params.length ≤ count := by
  unfold Definition.bind at h
  dsimp only at h
  split at h
  · cases h
  · rename_i params locals hp
    cases h
    obtain ⟨-, hsize, -⟩ := bindParams_spec hp
    have hgrow := (@bindAll_extends functions locals d.body).length_le
    rw [← Names.size_eq, ← Names.size_eq, hsize] at hgrow
    exact Nat.le_trans (Nat.le_add_left _ _) hgrow

/-- What binding a definition gives, if its name is one of the functions. -/
theorem bind_inv {functions : Names} {index i : Nat} {d : Definition} {form : Node} {count : Nat}
    (hd : d.name.name? = some d.name.text) (hi : functions.find? d.name.text = some i)
    (hbody : AllIn Leaf.OnlyNameBound d.body)
    (h : d.bind functions index = .ok (form, count)) :
    ∃ (locals : Names) (name : Leaf) (params body : List Node), locals.size = count ∧
      form = .branch (d.head :: .branch (.leaf name :: params) d.prototype (some index) :: body)
        d.span (some count) ∧
      d.name.Bound functions locals name ∧
      RelatedAll (Leaf.Bound functions locals) d.params params ∧
      RelatedAll (Leaf.Bound functions locals) d.body body ∧
      d.params.length ≤ count ∧
      ∀ j n, d.params[j]? = some n →
        ∃ l x, n = .leaf l ∧ l.name? = some x ∧ locals.find? x = some j := by
  have hcount := params_le_of_bind h
  have hname : bindLeaf functions {} d.name =
      ({ d.name with binding := some (.function i) }, {}) := by
    simp [bindLeaf, hd, hi]
  simp only [Definition.bind, hname] at h
  split at h
  · cases h
  · rename_i params locals hp
    cases h
    obtain ⟨hpre, hsize, hrel, hnum⟩ := bindParams_spec hp
    have hpre' := @bindAll_extends functions locals d.body
    have hrel' := @bindAll_spec functions locals _ hbody
    refine ⟨_, _, params, _, rfl, rfl, ?_, hrel.mono (Leaf.Bound.mono hpre'), hrel', hcount, ?_⟩
    · refine ⟨rfl, rfl, rfl, ?_, ?_, ?_⟩
      · intro hnone; rw [hd] at hnone; cases hnone
      · intro x j hx hj
        rw [hd] at hx; cases hx
        rw [hi] at hj; cases hj
        rfl
      · intro x hx hn
        rw [hd] at hx; cases hx
        rw [hi] at hn; cases hn
    · intro j n hn
      obtain ⟨l, x, rfl, hx, hf⟩ := hnum j n hn
      refine ⟨l, x, rfl, hx, ?_⟩
      have hz : Names.size {} = 0 := rfl
      rw [Names.find?_of_prefix hpre' hf, hz, Nat.zero_add]

/-! ## Declarations -/

def declarationsFrom (form : Nat) : List Node → List Declaration
  | [] => []
  | n :: ns =>
    match Definition.ofNode? n with
    | some (.ok d) => ⟨form, d⟩ :: declarationsFrom (form + 1) ns
    | _ => declarationsFrom (form + 1) ns

theorem mem_declarationsFrom {form : Nat} {ns : List Node} {x : Declaration} :
    x ∈ declarationsFrom form ns ↔
      ∃ j n, ns[j]? = some n ∧ Definition.ofNode? n = some (.ok x.definition) ∧ x.form = form + j := by
  induction ns generalizing form with
  | nil => simp [declarationsFrom]
  | cons n ns ih =>
    have hcons : (∃ j m, (n :: ns)[j]? = some m ∧ Definition.ofNode? m = some (.ok x.definition) ∧
        x.form = form + j) ↔ (Definition.ofNode? n = some (.ok x.definition) ∧ x.form = form) ∨
          x ∈ declarationsFrom (form + 1) ns := by
      rw [ih]
      constructor
      · rintro ⟨j, m, hm, hd, hf⟩
        cases j with
        | zero => simp at hm; subst hm; exact Or.inl ⟨hd, hf⟩
        | succ j => exact Or.inr ⟨j, m, by simpa using hm, hd, by omega⟩
      · rintro (⟨hd, hf⟩ | ⟨j, m, hm, hd, hf⟩)
        · exact ⟨0, n, rfl, hd, hf⟩
        · exact ⟨j + 1, m, by simpa using hm, hd, by omega⟩
    rw [hcons, declarationsFrom]
    split
    · rename_i d hd
      rw [List.mem_cons, hd]
      constructor
      · rintro (rfl | hx)
        · exact Or.inl ⟨rfl, rfl⟩
        · exact Or.inr hx
      · rintro (⟨hd', hf⟩ | hx)
        · left
          obtain ⟨f, d'⟩ := x
          cases hd'; cases hf; rfl
        · exact Or.inr hx
    · rename_i hd
      constructor
      · exact Or.inr
      · rintro (⟨hd', -⟩ | hx)
        · exact absurd hd' (hd _)
        · exact hx

def Declaration.isMain (d : Declaration) : Bool := d.name == mainName

/-- Names declared so far: `main` is `main`, and the others are all different. -/
structure Declared.Sound (d : Declared) : Prop where
  others : ∀ x ∈ d.others, x.name ≠ mainName
  nodup : (d.others.map Declaration.name).Nodup

theorem add_inv {d d' : Declared} {x : Declaration} (hd : d.Sound) (h : d.add x = .ok d') :
    d'.Sound ∧ d'.main.toList = d.main.toList ++ [x].filter Declaration.isMain ∧
      d'.others = d.others ++ [x].filter (fun x => !x.isMain) := by
  unfold Declared.add at h
  dsimp only at h
  split at h
  · rename_i hx
    split at h
    · cases h
    · rename_i hm
      cases h
      have hnone : d.main = none := by simpa using hm
      exact ⟨⟨hd.others, hd.nodup⟩, by simp [hnone, Declaration.isMain, hx],
        by simp [Declaration.isMain, hx]⟩
  · rename_i hx
    split at h
    · cases h
    · rename_i hany
      cases h
      have hnew : x.name ∉ d.others.map Declaration.name := by
        intro hmem
        obtain ⟨y, hy, hyx⟩ := List.mem_map.mp hmem
        exact hany (List.any_eq_true.mpr ⟨y, hy, by simpa using hyx⟩)
      refine ⟨⟨?_, ?_⟩, by simp [Declaration.isMain, hx], by simp [Declaration.isMain, hx]⟩
      · intro y hy
        rcases List.mem_append.mp hy with hy | hy
        · exact hd.others y hy
        · rw [List.mem_singleton.mp hy]; exact hx
      · rw [List.map_append, List.nodup_append]
        refine ⟨hd.nodup, by simp, ?_⟩
        intro a ha b hb hab
        simp at hb
        exact hnew (hb ▸ hab ▸ ha)

theorem declareFrom_spec {form : Nat} {ns : List Node} {d d' : Declared} (hd : d.Sound)
    (h : declareFrom form d ns = .ok d') :
    d'.Sound ∧ d'.main.toList = d.main.toList ++ (declarationsFrom form ns).filter Declaration.isMain ∧
      d'.others = d.others ++ (declarationsFrom form ns).filter (fun x => !x.isMain) := by
  induction ns generalizing form d with
  | nil => cases h; exact ⟨hd, by simp [declarationsFrom], by simp [declarationsFrom]⟩
  | cons n ns ih =>
    rw [declareFrom] at h
    rw [declarationsFrom]
    split at h
    · rename_i hn
      rw [hn]
      exact ih hd h
    · cases h
    · rename_i definition hn
      rw [hn]
      split at h
      · cases h
      · rename_i d₁ hadd
        obtain ⟨hs, hm, ho⟩ := add_inv hd hadd
        obtain ⟨hs', hm', ho'⟩ := ih hs h
        refine ⟨hs', ?_, ?_⟩
        · rw [hm', hm, List.append_assoc, ← List.filter_append]; rfl
        · rw [ho', ho, List.append_assoc, ← List.filter_append]; rfl

/-- The declarations of a tree are its definitions: `main` first, then the others in
source order, with different names. -/
theorem declare_spec {ns : List Node} {span : Span} {ds : List Declaration}
    (h : declare ns span = .ok ds) :
    (∃ main, ds = main :: (declarationsFrom 0 ns).filter (fun x => !x.isMain) ∧
      main.name = mainName) ∧
    (ds.map Declaration.name).Nodup ∧ ∀ x, x ∈ ds ↔ x ∈ declarationsFrom 0 ns := by
  unfold declare at h
  split at h
  · cases h
  · rename_i d hd
    split at h
    · cases h
    · rename_i main hm
      cases h
      obtain ⟨hs, hmain, hothers⟩ := declareFrom_spec (d := {}) ⟨by simp, by simp⟩ hd
      simp only [hm, Option.toList_some, Option.toList_none, List.nil_append] at hmain hothers
      have hmem : ∀ x, x ∈ declarationsFrom 0 ns ∧ x.isMain = true ↔ x = main := by
        intro x
        rw [← List.mem_filter, ← hmain, List.mem_singleton]
      have hname : main.name = mainName := by
        simpa [Declaration.isMain] using ((hmem main).mpr rfl).2
      refine ⟨⟨main, by rw [hothers], hname⟩, ?_, ?_⟩
      · rw [List.map_cons, List.nodup_cons]
        refine ⟨?_, hs.nodup⟩
        intro hin
        obtain ⟨y, hy, hyn⟩ := List.mem_map.mp hin
        exact hs.others y hy (hyn.trans hname)
      · intro x
        rw [List.mem_cons, ← hmem x, hothers, List.mem_filter]
        cases hx : x.isMain <;> simp

/-! ## Functions -/

theorem bindFunctions_spec {names : Names} {index : Nat} {ns ns' : List Node}
    {ds : List Declaration} {fs : List Function}
    (h : bindFunctions names index ns ds = .ok (ns', fs)) (hforms : (ds.map Declaration.form).Nodup)
    (hlt : ∀ d ∈ ds, d.form < ns.length) :
    ns'.length = ns.length ∧ fs.length = ds.length ∧
      (∀ j, (∀ d ∈ ds, d.form ≠ j) → ns'[j]? = ns[j]?) ∧
      ∀ (i : Nat) (d : Declaration), ds[i]? = some d → ∃ form count,
        d.definition.bind names (index + i) = .ok (form, count) ∧ ns'[d.form]? = some form ∧
        fs[i]? = some ⟨d.name, d.form, d.definition.params.length, count, d.definition.name.span⟩ := by
  induction ds generalizing index ns fs with
  | nil =>
    cases h
    exact ⟨rfl, rfl, fun _ _ => rfl, fun i d hd => by simp at hd⟩
  | cons d ds ih =>
    rw [bindFunctions] at h
    split at h
    · cases h
    · rename_i form count hbind
      split at h
      · cases h
      · rename_i ns₁ fs₁ hrest
        cases h
        rw [List.map_cons, List.nodup_cons] at hforms
        obtain ⟨hlen, hfs, hkeep, heach⟩ := ih hrest hforms.2 (by
          intro x hx
          rw [List.length_set]
          exact hlt x (List.mem_cons_of_mem _ hx))
        have hother : ∀ x ∈ ds, x.form ≠ d.form := by
          intro x hx heq
          exact hforms.1 (List.mem_map.mpr ⟨x, hx, heq⟩)
        refine ⟨by rw [hlen, List.length_set], by simp [hfs], ?_, ?_⟩
        · intro j hj
          rw [hkeep j fun x hx => hj x (List.mem_cons_of_mem _ hx),
            List.getElem?_set_ne (hj d (List.mem_cons_self ..))]
        · intro i x hx
          cases i with
          | zero =>
            simp at hx; subst hx
            refine ⟨form, count, hbind, ?_, rfl⟩
            -- later definitions have other forms, so they leave this one in its place
            rw [hkeep _ hother, List.getElem?_set_self (hlt d (List.mem_cons_self ..))]
          | succ i =>
            obtain ⟨form', count', hb, hn, hf⟩ := heach i x (by simpa using hx)
            refine ⟨form', count', ?_, hn, by simpa using hf⟩
            rw [← hb]; congr 1; omega

theorem arity_le_of_bindFunctions {names : Names} {index : Nat} {ns ns' : List Node}
    {ds : List Declaration} {fs : List Function}
    (h : bindFunctions names index ns ds = .ok (ns', fs)) : ∀ f ∈ fs, f.arity ≤ f.locals := by
  induction ds generalizing index ns fs with
  | nil =>
    cases h
    intro f hf
    cases hf
  | cons d ds ih =>
    rw [bindFunctions] at h
    split at h
    · cases h
    · rename_i form count hbind
      split at h
      · cases h
      · rename_i ns₁ fs₁ hrest
        cases h
        intro f hf
        rcases List.mem_cons.mp hf with rfl | hf
        · exact params_le_of_bind hbind
        · exact ih hrest f hf

theorem resolve_inv {root : Node} {p : Program} (h : resolve root = .ok p) :
    ∃ ns ns' span tag ds, root = .branch ns span tag ∧ p.root = .branch ns' span tag ∧
      declare ns span = .ok ds ∧ bindFunctions (functionNames ds) 0 ns ds = .ok (ns', p.functions) := by
  unfold resolve at h
  split at h
  · cases h
  · rename_i ns span tag
    split at h
    · cases h
    · rename_i ds hds
      split at h
      · cases h
      · rename_i ns' fs hb
        cases h
        exact ⟨ns, ns', span, tag, ds, rfl, rfl, hds, hb⟩

theorem arity_le_locals {root : Node} {p : Program} (h : resolve root = .ok p) :
    ∀ f ∈ p.functions, f.arity ≤ f.locals := by
  obtain ⟨ns, ns', span, tag, ds, -, -, -, hb⟩ := resolve_inv h
  exact arity_le_of_bindFunctions hb

/-- The entry `f` of a function table against the definition `d` that it comes
from: `n` is the form as it was read, `n'` the same form resolved. -/
structure Function.Resolves (f : Function) (functions locals : Names) (n n' : Node)
    (d : Definition) : Prop where
  definition : Definition.ofNode? n = some (.ok d)
  bound : Related (Leaf.Bound functions locals) n n'
  name : f.name = d.name.text
  arity : f.arity = d.params.length
  slots : f.locals = locals.size
  span : f.span = d.name.span
  fits : f.arity ≤ f.locals
  params : ∀ j m, d.params[j]? = some m →
    ∃ l x, m = .leaf l ∧ l.name? = some x ∧ locals.find? x = some j

structure Leaf.Alike (l l' : Leaf) : Prop where
  token : l'.token = l.token
  kind : l'.kind = l.kind

structure Resolved (functions : Names) (root : Node) (p : Program) : Prop where
  alike : Related Leaf.Alike root p.root
  main : functions.find? mainName = some 0
  table : ∀ x i, functions.find? x = some i ↔ ∃ f, p.function? i = some f ∧ f.name = x
  functions : ∀ i f, p.function? i = some f → ∃ locals n n' d,
    root.children[f.form]? = some n ∧ p.root.children[f.form]? = some n' ∧
      f.Resolves functions locals n n' d
  complete : ∀ (j : Nat) n d, root.children[j]? = some n → Definition.ofNode? n = some (.ok d) →
    ∃ i f, p.function? i = some f ∧ f.form = j

theorem bound_unnamed {functions locals : Names} {l : Leaf} (hl : l.OnlyNameBound)
    (hn : l.name? = none) : l.Bound functions locals l := by
  refine ⟨rfl, rfl, rfl, hl, ?_, ?_⟩
  · intro x i hx; rw [hn] at hx; cases hx
  · intro x hx; rw [hn] at hx; cases hx

theorem Leaf.Bound.alike {functions locals : Names} {l l' : Leaf} (h : l.Bound functions locals l') :
    l.Alike l' :=
  ⟨h.token, h.kind⟩

/-- The resolved form of a definition is the form itself, bound. -/
theorem resolves_of_bind {functions : Names} {index i : Nat} {n form : Node} {d : Definition}
    {count place : Nat} (hn : n.All Leaf.OnlyNameBound)
    (hd : Definition.ofNode? n = some (.ok d)) (hi : functions.find? d.name.text = some i)
    (h : d.bind functions index = .ok (form, count)) :
    ∃ locals, Function.Resolves ⟨d.name.text, place, d.params.length, count, d.name.span⟩
      functions locals n form d := by
  obtain ⟨⟨ptag, tag, rfl⟩, hk, hname⟩ := ofNode?_inv hd
  obtain ⟨hhead, hproto, hbody⟩ := hn
  obtain ⟨locals, name, params, body, rfl, rfl, hname', hparams, hbody', hfits, hnum⟩ :=
    bind_inv hname hi hbody h
  refine ⟨locals, hd, ⟨rfl, ?_, ⟨rfl, hname', hparams⟩, hbody'⟩, rfl, rfl, rfl, rfl, hfits, hnum⟩
  obtain ⟨head, hleaf⟩ : ∃ head, d.head = .leaf head := by
    cases hh : d.head with
    | leaf l => exact ⟨l, rfl⟩
    | branch _ _ _ => rw [hh] at hk; cases hk
  rw [hleaf] at hk hhead ⊢
  refine bound_unnamed hhead ?_
  simp only [keyword?, Leaf.keyword?, Leaf.name?] at hk ⊢
  split at hk
  · rename_i hkind; simp [hkind]
  · cases hk

/-! ## Resolved programs -/

/-- A node gives one declaration at most, so different names stand in different forms. -/
theorem nodup_forms {ns : List Node} {ds : List Declaration}
    (hnames : (ds.map Declaration.name).Nodup)
    (hmem : ∀ x, x ∈ ds ↔ x ∈ declarationsFrom 0 ns) : (ds.map Declaration.form).Nodup := by
  rw [List.Nodup, List.pairwise_map] at hnames ⊢
  refine List.Pairwise.imp_of_mem ?_ hnames
  intro a b ha hb hne heq
  obtain ⟨j, n, hn, hd, hf⟩ := mem_declarationsFrom.mp ((hmem a).mp ha)
  obtain ⟨j', n', hn', hd', hf'⟩ := mem_declarationsFrom.mp ((hmem b).mp hb)
  have hj : j' = j := by omega
  subst hj
  rw [hn] at hn'; cases hn'
  rw [hd] at hd'
  simp only [Option.some.injEq, Except.ok.injEq] at hd'
  exact hne (by rw [Declaration.name, Declaration.name, hd'])

/-- Every declaration has its entry in the function table, and its form is bound. -/
theorem entry_of_declaration {p : Program} {ns ns' : List Node}
    {ds : List Declaration} (hroot : AllIn Leaf.OnlyNameBound ns)
    (hnames : (ds.map Declaration.name).Nodup)
    (hmem : ∀ x, x ∈ ds ↔ x ∈ declarationsFrom 0 ns)
    (hbind : bindFunctions (functionNames ds) 0 ns ds = .ok (ns', p.functions))
    {i : Nat} {d : Declaration} (hd : ds[i]? = some d) :
    ∃ f n n' locals, p.function? i = some f ∧ ns[d.form]? = some n ∧ ns'[d.form]? = some n' ∧
      f.form = d.form ∧ f.name = d.name ∧
      f.Resolves (functionNames ds) locals n n' d.definition := by
  have hlt : ∀ x ∈ ds, x.form < ns.length := by
    intro x hx
    obtain ⟨j, n, hn, -, hj⟩ := mem_declarationsFrom.mp ((hmem x).mp hx)
    rw [hj, Nat.zero_add]
    exact (List.getElem?_eq_some_iff.mp hn).1
  obtain ⟨-, -, -, heach⟩ := bindFunctions_spec hbind (nodup_forms hnames hmem) hlt
  obtain ⟨form, count, hb, hn', hf⟩ := heach i d hd
  obtain ⟨j, n, hn, hof, hj⟩ := mem_declarationsFrom.mp ((hmem d).mp (List.mem_of_getElem? hd))
  rw [Nat.zero_add] at hj
  rw [← hj] at hn
  have hindex : (functionNames ds).find? d.definition.name.text = some i := by
    rw [functionNames, Names.find?_ofList hnames, List.getElem?_map, hd]
    rfl
  obtain ⟨locals, hres⟩ := resolves_of_bind
    (allIn_iff.mp hroot n (List.mem_of_getElem? hn)) hof hindex hb
  exact ⟨_, n, form, locals, hf, hn, hn', rfl, rfl, hres⟩

theorem related_alike_refl (n : Node) : Related Leaf.Alike n n :=
  related_self (all_of_forall (fun _ => ⟨rfl, rfl⟩) n)

/-- What resolution does to a tree whose names alone are bound, if to any. -/
theorem resolve_spec {root : Node} {p : Program} (h : resolve root = .ok p)
    (hroot : root.All Leaf.OnlyNameBound) : ∃ functions, Resolved functions root p := by
  obtain ⟨ns, ns', span, tag, ds, rfl, hp, hdecl, hbind⟩ := resolve_inv h
  obtain ⟨⟨main, hds, hmain⟩, hnames, hmem⟩ := declare_spec hdecl
  have hlt : ∀ x ∈ ds, x.form < ns.length := by
    intro x hx
    obtain ⟨j, n, hn, -, hj⟩ := mem_declarationsFrom.mp ((hmem x).mp hx)
    rw [hj, Nat.zero_add]
    exact (List.getElem?_eq_some_iff.mp hn).1
  obtain ⟨hlen, hcount, hkeep, -⟩ := bindFunctions_spec hbind (nodup_forms hnames hmem) hlt
  have hentry {i : Nat} {d : Declaration} (hd : ds[i]? = some d) :=
    entry_of_declaration hroot hnames hmem hbind hd
  have hdecl_of {i : Nat} {f : Function} (hf : p.function? i = some f) : ∃ d, ds[i]? = some d := by
    have hi : i < ds.length := hcount ▸ (List.getElem?_eq_some_iff.mp hf).1
    exact ⟨_, List.getElem?_eq_getElem hi⟩
  refine ⟨functionNames ds, ?_, ?_, ?_, ?_, ?_⟩
  · rw [hp]
    refine ⟨rfl, relatedAll_of_getElem? hlen ?_⟩
    intro j n n' hn hn'
    by_cases hj : ∃ d ∈ ds, d.form = j
    · obtain ⟨d, hd, rfl⟩ := hj
      obtain ⟨i, hi⟩ := List.mem_iff_getElem?.mp hd
      obtain ⟨f, m, m', locals, -, hm, hm', -, -, hres⟩ := hentry hi
      rw [hn] at hm; cases hm
      rw [hn'] at hm'; cases hm'
      exact hres.bound.mono fun _ _ => Leaf.Bound.alike
    · have hsame := hkeep j fun d hd heq => hj ⟨d, hd, heq⟩
      rw [hn, hn'] at hsame; cases hsame
      exact related_alike_refl n
  · rw [functionNames, Names.find?_ofList hnames, hds, List.map_cons, hmain]
    rfl
  · intro x i
    rw [functionNames, Names.find?_ofList hnames, List.getElem?_map]
    constructor
    · intro hx
      obtain ⟨d, hd, rfl⟩ := Option.map_eq_some_iff.mp hx
      obtain ⟨f, -, -, -, hf, -, -, -, hname, -⟩ := hentry hd
      exact ⟨f, hf, hname⟩
    · rintro ⟨f, hf, rfl⟩
      obtain ⟨d, hd⟩ := hdecl_of hf
      obtain ⟨f', -, -, -, hf', -, -, -, hname, -⟩ := hentry hd
      rw [hf] at hf'; cases hf'
      rw [hd, hname]
      rfl
  · intro i f hf
    obtain ⟨d, hd⟩ := hdecl_of hf
    obtain ⟨f', n, n', locals, hf', hn, hn', hform, -, hres⟩ := hentry hd
    rw [hf] at hf'; cases hf'
    rw [hform, hp]
    exact ⟨locals, n, n', d.definition, hn, hn', hres⟩
  · intro j n d hn hd
    have hin : (⟨j, d⟩ : Declaration) ∈ declarationsFrom 0 ns :=
      mem_declarationsFrom.mpr ⟨j, n, hn, hd, (Nat.zero_add j).symm⟩
    obtain ⟨i, hi⟩ := List.mem_iff_getElem?.mp ((hmem _).mpr hin)
    obtain ⟨f, -, -, -, hf, -, -, hform, -, -⟩ := hentry hi
    exact ⟨i, f, hf, hform⟩

end Lisplet
