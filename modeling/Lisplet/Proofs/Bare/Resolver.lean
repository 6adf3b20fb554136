import Lisplet.Proofs.Resolution

/-!
# Resolution in two passes

The bare resolver goes over the top-level forms twice. The first pass fills a
vector of signatures, with `main` in the first place, and stamps each prototype
with its index. The second pass takes the forms of the signatures apart again, by
position, without looking whether they still are definitions. A position that is
not there has no result. `Bare.resolve_eq` says that the first pass leaves nothing
to the second that it cannot take apart, and that both together are `resolve`.
-/

namespace Lisplet.Bare

def sub? (a b : Nat) : Option Nat := if b ≤ a then some (a - b) else none

def splitAt? (n : Nat) (xs : List α) : Option (List α × List α) :=
  if n ≤ xs.length then some (xs.take n, xs.drop n) else none

def set? (xs : List α) (i : Nat) (x : α) : Option (List α) :=
  if i < xs.length then some (xs.set i x) else none

/-! ## The first pass -/

structure Signatures where
  slots : List (Option Function) := [none]
  names : Names := .ofList [mainName]

def place (s : Signatures) (name : String) (span : Span) :
    Option (Except Fault (Nat × Signatures)) :=
  if name = mainName then
    s.slots[0]?.map fun first =>
      if first.isSome then .error (.duplicateMain span) else .ok (0, s)
  else if s.names.contains name then some (.error (.duplicateFunction name span))
  else
    let slots := s.slots ++ [none]
    (sub? slots.length 1).map fun index => .ok (index, ⟨slots, (s.names.intern name).2⟩)

def addSignature (form : Nat) (s : Signatures) (name : String) (span : Span)
    (prototype : List Node) : Option (Except Fault (Nat × Signatures)) :=
  (place s name span).bind fun
    | .error fault => some (.error fault)
    | .ok (index, s) =>
      (sub? prototype.length 1).bind fun arity =>
        (set? s.slots index (some ⟨name, form, arity, 0, span⟩)).map fun slots =>
          .ok (index, { s with slots := slots })

def collectNode (form : Nat) (s : Signatures) : Node → Option (Except Fault (Node × Signatures))
  | .leaf l => some (.ok (.leaf l, s))
  | .branch children span tag =>
    if children.head?.bind Node.keyword? ≠ some .defun then
      some (.ok (.branch children span tag, s))
    else
      match (children[1]? : Option Node) with
      | none => some (.error (.malformedDefun span))
      | some (.leaf l) => some (.error (.expectedPrototype l.span))
      | some (.branch prototype protoSpan _) =>
        match prototype.head? with
        | some (.leaf l) =>
          match l.name? with
          | some name =>
            (addSignature form s name l.span prototype).map fun r => r.map fun (index, s) =>
              (.branch (children.set 1 (.branch prototype protoSpan (some index))) span tag, s)
          | none => some (.error (.expectedFunctionName protoSpan))
        | _ => some (.error (.expectedFunctionName protoSpan))

def collectFrom (form : Nat) (s : Signatures) :
    List Node → Option (Except Fault (List Node × Signatures))
  | [] => some (.ok ([], s))
  | n :: ns =>
    (collectNode form s n).bind fun
      | .error fault => some (.error fault)
      | .ok (n, s) =>
        (collectFrom (form + 1) s ns).map fun r => r.map fun (ns, s) => (n :: ns, s)

/-! ## The second pass -/

def bindForm (names : Names) (children : List Node) : Option (Except Fault (List Node × Names)) :=
  (splitAt? 2 children).bind fun (head, body) =>
    head[1]?.bind fun
      | .leaf l => some (.error (.expectedPrototype l.span))
      | .branch prototype span tag =>
        (splitAt? 1 prototype).bind fun (name, params) =>
          name[0]?.map fun first =>
            let (first, locals) := bindNode names {} first
            match bindParams names locals params with
            | .error fault => .error fault
            | .ok (params, locals) =>
              let (body, locals) := bindAll names locals body
              .ok (head.set 1 (.branch (name.set 0 first ++ params) span tag) ++ body, locals)

/-- The second pass. A signature whose form is gone would be passed over. -/
def bindForms (names : Names) (ns : List Node) :
    List Function → Option (Except Fault (List Node × List Function))
  | [] => some (.ok (ns, []))
  | f :: fs =>
    match ns[f.form]? with
    | some (.branch children span _) =>
      (bindForm names children).bind fun
        | .error fault => some (.error fault)
        | .ok (children, locals) =>
          let form := Node.branch children span (some locals.size)
          (bindForms names (ns.set f.form form) fs).map fun r => r.map fun (ns, fs) =>
            (ns, { f with locals := locals.size } :: fs)
    | _ => (bindForms names ns fs).map fun r => r.map fun (ns, fs) => (ns, f :: fs)

def resolve : Node → Option (Except Fault Program)
  | .leaf l => some (.error (.missingMain l.span))
  | .branch ns span tag =>
    (collectFrom 0 {} ns).bind fun
      | .error fault => some (.error fault)
      | .ok (ns, s) =>
        match s.slots.mapM id with
        | none => some (.error (.missingMain span))
        | some functions =>
          (bindForms s.names ns functions).map fun r => r.map fun (ns, functions) =>
            ⟨.branch ns span tag, functions⟩

/-! ## What the first pass leaves behind -/

def signature (x : Declaration) : Function :=
  ⟨x.name, x.form, x.definition.params.length, 0, x.definition.name.span⟩

def places (d : Declared) : List (Option Declaration) := d.main :: d.others.map some

structure Holds (d : Declared) (s : Signatures) : Prop where
  slots : s.slots = (places d).map (Option.map signature)
  names : s.names.toList = mainName :: d.others.map Declaration.name

def stampedChildren (index : Nat) (d : Definition) : List Node :=
  d.head :: .branch (.leaf d.name :: d.params) d.prototype (some index) :: d.body

def stamped (index : Nat) (d : Definition) (tag : Option Nat) : Node :=
  .branch (stampedChildren index d) d.span tag

theorem holds_start : Holds {} {} := ⟨rfl, Names.toList_ofList (by simp)⟩

theorem collectNode_other (form : Nat) (s : Signatures) {n : Node}
    (h : Definition.ofNode? n = none) : collectNode form s n = some (.ok (n, s)) := by
  match n with
  | .leaf l => rfl
  | .branch [] span tag => rfl
  | .branch (head :: rest) span tag =>
    have hk : head.keyword? ≠ some .defun := by
      intro hk
      simp only [Definition.ofNode?, hk, if_true] at h
      cases h
    simp only [collectNode, List.head?_cons, Option.bind_some, ne_eq, hk, not_false_eq_true, if_true]

theorem collectNode_malformed (form : Nat) (s : Signatures) {n : Node} {fault : Fault}
    (h : Definition.ofNode? n = some (.error fault)) : collectNode form s n = some (.error fault) := by
  match n with
  | .leaf l => cases h
  | .branch [] span tag => cases h
  | .branch (head :: rest) span tag =>
    simp only [Definition.ofNode?] at h
    split at h
    · rename_i hk
      rw [Option.some.injEq] at h
      simp only [collectNode, List.head?_cons, Option.bind_some, hk, ne_eq, not_true_eq_false, if_false,
        List.getElem?_cons_succ]
      match rest with
      | [] =>
        cases h
        rfl
      | .leaf l :: body =>
        cases h
        rfl
      | .branch [] prototype ptag :: body =>
        cases h
        rfl
      | .branch (.branch cs cspan ctag :: params) prototype ptag :: body =>
        cases h
        rfl
      | .branch (.leaf name :: params) prototype ptag :: body =>
        cases hname : name.name? with
        | some x => simp [hname] at h
        | none =>
          simp only [hname, Option.isSome_none, Bool.false_eq_true, if_false] at h
          cases h
          simp only [List.getElem?_cons_zero, List.head?_cons, hname]
    · cases h

theorem collectNode_definition (form : Nat) (s : Signatures) {n : Node} {d : Definition}
    (h : Definition.ofNode? n = some (.ok d)) :
    ∃ tag, collectNode form s n =
      (addSignature form s d.name.text d.name.span (.leaf d.name :: d.params)).map fun r =>
        r.map fun (index, s) => (stamped index d tag, s) := by
  obtain ⟨⟨ptag, tag, rfl⟩, hk, hname⟩ := ofNode?_inv h
  refine ⟨tag, ?_⟩
  simp only [collectNode, List.head?_cons, Option.bind_some, hk, ne_eq, not_true_eq_false, if_false,
    List.getElem?_cons_succ, List.getElem?_cons_zero, hname]
  rfl

section
variable {d : Declared} {s : Signatures} (hs : Holds d s)
include hs

theorem contains_iff (name : String) (hmain : name ≠ mainName) :
    s.names.contains name = d.others.any fun old => old.name == name := by
  rw [Bool.eq_iff_iff, List.any_eq_true, Names.contains, Option.isSome_iff_ne_none, ne_eq,
    Names.find?_eq_none_iff, hs.names, Decidable.not_not, List.mem_cons, List.mem_map]
  constructor
  · rintro (h | ⟨old, hold, hname⟩)
    · exact absurd h hmain
    · exact ⟨old, hold, beq_iff_eq.mpr hname⟩
  · rintro ⟨old, hold, hname⟩
    exact .inr ⟨old, hold, beq_iff_eq.mp hname⟩

theorem first_slot : s.slots[0]? = some (d.main.map signature) := by
  rw [hs.slots]
  rfl

theorem length_slots : s.slots.length = d.others.length + 1 := by
  rw [hs.slots]
  simp [places]

theorem place_refused {x : Declaration} {fault : Fault} (h : d.add x = .error fault) :
    place s x.name x.definition.name.span = some (.error fault) := by
  unfold Declared.add at h
  unfold place
  by_cases hmain : x.name = mainName
  · simp only [hmain, if_true] at h ⊢
    rw [first_slot hs]
    cases hd : d.main with
    | none => simp [hd] at h
    | some y =>
      simp only [hd, Option.isSome_some, if_true] at h
      cases h
      rfl
  · simp only [hmain, if_false, contains_iff hs x.name hmain] at h ⊢
    split at h
    · rename_i hany
      cases h
      rw [if_pos hany]
    · cases h

theorem addSignature_refused {x : Declaration} {fault : Fault} (h : d.add x = .error fault) :
    addSignature x.form s x.name x.definition.name.span (.leaf x.definition.name :: x.definition.params) =
      some (.error fault) := by
  rw [addSignature, place_refused hs h]
  rfl

theorem place_accepted {x : Declaration} {d' : Declared} (h : d.add x = .ok d') :
    ∃ index s', place s x.name x.definition.name.span = some (.ok (index, s')) ∧
      index < s'.slots.length ∧ Holds d' { s' with slots := s'.slots.set index (some (signature x)) } ∧
      (places d')[index]? = some (some x) := by
  unfold Declared.add at h
  unfold place
  have hlen := length_slots hs
  by_cases hmain : x.name = mainName
  · simp only [hmain, if_true] at h ⊢
    rw [first_slot hs]
    cases hd : d.main with
    | some y => simp [hd] at h
    | none =>
      simp only [hd, Option.isSome_none, Bool.false_eq_true, if_false] at h
      cases h
      refine ⟨0, s, rfl, by omega, ⟨?_, hs.names⟩, rfl⟩
      rw [hs.slots]
      simp [places]
  · simp only [hmain, if_false] at h ⊢
    split at h
    · cases h
    · rename_i hany
      cases h
      rw [← contains_iff hs x.name hmain] at hany
      have hindex : sub? (s.slots ++ [none]).length 1 = some s.slots.length := by simp [sub?]
      have hnew : x.name ∉ s.names.toList := by
        apply Names.find?_eq_none_iff.mp
        rwa [Names.contains, Option.not_isSome_iff_eq_none] at hany
      refine ⟨s.slots.length, ⟨s.slots ++ [none], (s.names.intern x.name).2⟩, ?_, ?_, ⟨?_, ?_⟩, ?_⟩
      · rw [if_neg hany, hindex]
        rfl
      · simp
      · rw [List.set_append_right _ _ (Nat.le_refl _), Nat.sub_self, hs.slots]
        simp [places]
      · rw [Names.toList_intern, if_neg hnew, hs.names]
        simp
      · rw [hlen]
        simp [places]

theorem addSignature_accepted {x : Declaration} {d' : Declared} (h : d.add x = .ok d') :
    ∃ index s', addSignature x.form s x.name x.definition.name.span
        (.leaf x.definition.name :: x.definition.params) = some (.ok (index, s')) ∧
      Holds d' s' ∧ (places d')[index]? = some (some x) := by
  obtain ⟨index, s', hplace, hlt, hholds, hget⟩ := place_accepted hs h
  refine ⟨index, _, ?_, hholds, hget⟩
  have harity : sub? (Node.leaf x.definition.name :: x.definition.params).length 1 =
      some x.definition.params.length := by simp [sub?]
  rw [addSignature, hplace, Option.bind_some, harity]
  dsimp only [Option.bind_some]
  rw [set?, if_pos hlt]
  rfl

end

/-- A place that is taken stays taken. -/
theorem places_add {d d' : Declared} {x y : Declaration} {i : Nat} (h : d.add x = .ok d')
    (hy : (places d)[i]? = some (some y)) : (places d')[i]? = some (some y) := by
  unfold Declared.add at h
  dsimp only at h
  split at h
  · split at h
    · cases h
    · rename_i hnone
      cases h
      cases i with
      | zero =>
        have hmain : d.main = some y := Option.some.inj hy
        simp [hmain] at hnone
      | succ i => exact hy
  · split at h
    · cases h
    · cases h
      cases i with
      | zero => exact hy
      | succ i =>
        have hy' : (d.others.map some)[i]? = some (some y) := hy
        change ((d.others ++ [x]).map some)[i]? = some (some y)
        rw [List.map_append, List.getElem?_append_left (List.getElem?_eq_some_iff.mp hy').1, hy']

theorem places_declareFrom {form : Nat} {ns : List Node} {d d' : Declared} {y : Declaration} {i : Nat}
    (h : declareFrom form d ns = .ok d') (hy : (places d)[i]? = some (some y)) :
    (places d')[i]? = some (some y) := by
  induction ns generalizing form d with
  | nil =>
    cases h
    exact hy
  | cons n ns ih =>
    rw [declareFrom] at h
    split at h
    · exact ih h hy
    · cases h
    · split at h
      · cases h
      · rename_i hadd
        exact ih h (places_add hadd hy)

/-- The nodes after the first pass: each definition is stamped with its place, and
everything else is as it was. -/
structure Stamps (form : Nat) (d : Declared) (ns ns' : List Node) : Prop where
  length : ns'.length = ns.length
  definition : ∀ (j : Nat) (n : Node) (x : Definition), ns[j]? = some n →
    Definition.ofNode? n = some (.ok x) → ∃ (index : Nat) (tag : Option Nat),
      ns'[j]? = some (stamped index x tag) ∧ (places d)[index]? = some (some ⟨form + j, x⟩)
  other : ∀ (j : Nat) (n : Node), ns[j]? = some n → (∀ x, Definition.ofNode? n ≠ some (.ok x)) →
    ns'[j]? = some n

theorem Stamps.cons {form : Nat} {d : Declared} {n n' : Node} {ns ns' : List Node}
    (hrest : Stamps (form + 1) d ns ns')
    (hdefinition : ∀ x, Definition.ofNode? n = some (.ok x) → ∃ (index : Nat) (tag : Option Nat),
      n' = stamped index x tag ∧ (places d)[index]? = some (some ⟨form, x⟩))
    (hother : (∀ x, Definition.ofNode? n ≠ some (.ok x)) → n' = n) : Stamps form d (n :: ns) (n' :: ns') := by
  refine ⟨by simp [hrest.length], ?_, ?_⟩
  · intro j m x hj hx
    cases j with
    | zero =>
      cases hj
      obtain ⟨index, tag, hn', hget⟩ := hdefinition x hx
      exact ⟨index, tag, by rw [hn']; rfl, hget⟩
    | succ j =>
      obtain ⟨index, tag, hn', hget⟩ := hrest.definition j m x hj hx
      exact ⟨index, tag, hn', by rw [hget, Nat.add_right_comm]; rfl⟩
  · intro j m hj hm
    cases j with
    | zero =>
      cases hj
      rw [hother hm]
      rfl
    | succ j => exact hrest.other j m hj hm

theorem collectFrom_refused {form : Nat} {ns : List Node} {d : Declared} {s : Signatures}
    {fault : Fault} (hs : Holds d s) (h : declareFrom form d ns = .error fault) :
    collectFrom form s ns = some (.error fault) := by
  induction ns generalizing form d s with
  | nil => cases h
  | cons n ns ih =>
    rw [declareFrom] at h
    rw [collectFrom]
    split at h
    · rename_i hn
      rw [collectNode_other form s hn, Option.bind_some]
      dsimp only
      rw [ih hs h]
      rfl
    · rename_i hn
      cases h
      rw [collectNode_malformed form s hn]
      rfl
    · rename_i x hn
      obtain ⟨tag, hnode⟩ := collectNode_definition form s hn
      rw [hnode]
      split at h
      · rename_i hadd
        cases h
        have hadd' := addSignature_refused hs hadd
        dsimp only [Declaration.name] at hadd'
        rw [hadd']
        rfl
      · rename_i d₁ hadd
        obtain ⟨index, s₁, hadd', hs₁, -⟩ := addSignature_accepted hs hadd
        dsimp only [Declaration.name] at hadd'
        rw [hadd']
        dsimp only [Option.map_some, Except.map, Option.bind_some]
        rw [ih hs₁ h]
        rfl

theorem collectFrom_accepted {form : Nat} {ns : List Node} {d d' : Declared} {s : Signatures}
    (hs : Holds d s) (h : declareFrom form d ns = .ok d') :
    ∃ ns' s', collectFrom form s ns = some (.ok (ns', s')) ∧ Holds d' s' ∧ Stamps form d' ns ns' := by
  induction ns generalizing form d s with
  | nil =>
    cases h
    refine ⟨[], s, rfl, hs, rfl, ?_, ?_⟩
    · intro j n x hj
      simp at hj
    · intro j n hj
      simp at hj
  | cons n ns ih =>
    rw [declareFrom] at h
    rw [collectFrom]
    split at h
    · rename_i hn
      obtain ⟨ns', s', hrest, hs', hstamps⟩ := ih hs h
      refine ⟨n :: ns', s', ?_, hs', ?_⟩
      · rw [collectNode_other form s hn, Option.bind_some]
        dsimp only
        rw [hrest]
        rfl
      · apply hstamps.cons
        · intro x hx
          rw [hn] at hx
          cases hx
        · exact fun _ => rfl
    · cases h
    · rename_i x hn
      split at h
      · cases h
      · rename_i d₁ hadd
        obtain ⟨index, s₁, hadd', hs₁, hget⟩ := addSignature_accepted hs hadd
        obtain ⟨ns', s', hrest, hs', hstamps⟩ := ih hs₁ h
        obtain ⟨tag, hnode⟩ := collectNode_definition form s hn
        refine ⟨stamped index x tag :: ns', s', ?_, hs', ?_⟩
        · dsimp only [Declaration.name] at hadd'
          rw [hnode, hadd']
          dsimp only [Option.map_some, Except.map, Option.bind_some]
          rw [hrest]
          rfl
        · apply hstamps.cons
          · intro y hy
            rw [hn] at hy
            cases hy
            exact ⟨index, tag, rfl, places_declareFrom h hget⟩
          · intro hnone
            exact absurd hn (hnone x)

/-! ## What the second pass finds -/

theorem bindForm_stamped (names : Names) (index : Nat) (d : Definition) :
    bindForm names (stampedChildren index d) = some
      (match bindParams names (bindLeaf names {} d.name).2 d.params with
      | .error fault => .error fault
      | .ok (params, locals) =>
        .ok (d.head :: .branch (.leaf (bindLeaf names {} d.name).1 :: params) d.prototype (some index) ::
          (bindAll names locals d.body).1, (bindAll names locals d.body).2)) := by
  simp [bindForm, splitAt?, stampedChildren]
  rfl

theorem bindForm_refused {names : Names} {index : Nat} {d : Definition} {fault : Fault}
    (h : d.bind names index = .error fault) :
    bindForm names (stampedChildren index d) = some (.error fault) := by
  unfold Definition.bind at h
  dsimp only at h
  split at h
  · rename_i hparams
    cases h
    rw [bindForm_stamped, hparams]
  · cases h

theorem bindForm_accepted {names : Names} {index : Nat} {d : Definition} {form : Node} {count : Nat}
    (h : d.bind names index = .ok (form, count)) :
    ∃ children locals, bindForm names (stampedChildren index d) = some (.ok (children, locals)) ∧
      locals.size = count ∧ form = .branch children d.span (some count) := by
  unfold Definition.bind at h
  dsimp only at h
  split at h
  · cases h
  · rename_i params locals hparams
    cases h
    refine ⟨_, _, ?_, rfl, rfl⟩
    rw [bindForm_stamped, hparams]

theorem bindForms_eq {names : Names} {index : Nat} {ns ns' : List Node} {ds : List Declaration}
    (hforms : (ds.map Declaration.form).Nodup) (hlen : ns'.length = ns.length)
    (hsame : ∀ j : Nat, (∀ d ∈ ds, d.form ≠ j) → ns'[j]? = ns[j]?)
    (hstamped : ∀ (k : Nat) (d : Declaration), ds[k]? = some d →
      ∃ tag, ns'[d.form]? = some (stamped (index + k) d.definition tag)) :
    bindForms names ns' (ds.map signature) = some (bindFunctions names index ns ds) := by
  induction ds generalizing index ns ns' with
  | nil =>
    have hns : ns' = ns := List.ext_getElem? fun j => hsame j fun d hd => nomatch hd
    rw [hns]
    rfl
  | cons d ds ih =>
    rw [List.map_cons, List.nodup_cons] at hforms
    obtain ⟨tag, hform⟩ := hstamped 0 d rfl
    have hlt : d.form < ns'.length := (List.getElem?_eq_some_iff.mp hform).1
    have hsig : (signature d).form = d.form := rfl
    rw [List.map_cons, bindForms, hsig, hform, bindFunctions]
    dsimp only [stamped]
    rw [Nat.add_zero]
    cases hbind : d.definition.bind names index with
    | error fault =>
      rw [bindForm_refused hbind]
      rfl
    | ok r =>
      obtain ⟨form, count⟩ := r
      obtain ⟨children, locals, hb, rfl, rfl⟩ := bindForm_accepted hbind
      have hother : ∀ x ∈ ds, d.form ≠ x.form := by
        intro x hx heq
        exact hforms.1 (List.mem_map.mpr ⟨x, hx, heq.symm⟩)
      generalize hform' : Node.branch children d.definition.span (some locals.size) = form
      have hrest : bindForms names (ns'.set d.form form) (ds.map signature) =
          some (bindFunctions names (index + 1) (ns.set d.form form) ds) := by
        apply ih hforms.2 (by simp [hlen])
        · intro j hj
          by_cases hjd : d.form = j
          · subst hjd
            rw [List.getElem?_set_self hlt, List.getElem?_set_self (by omega)]
          · rw [List.getElem?_set_ne hjd, List.getElem?_set_ne hjd]
            apply hsame
            intro x hx
            rcases List.mem_cons.mp hx with rfl | hx
            · exact hjd
            · exact hj x hx
        · intro k x hx
          obtain ⟨xtag, hget⟩ := hstamped (k + 1) x hx
          refine ⟨xtag, ?_⟩
          rw [List.getElem?_set_ne (hother x (List.mem_of_getElem? hx)), hget, Nat.add_right_comm]
          rfl
      rw [hb, Option.bind_some]
      dsimp only
      rw [hform', hrest]
      cases bindFunctions names (index + 1) (ns.set d.form form) ds with
      | error fault => rfl
      | ok r => rfl

theorem mapM_places (d : Declared) :
    ((places d).map (Option.map signature)).mapM id =
      d.main.map fun main => (main :: d.others).map signature := by
  have hothers : ∀ xs : List Declaration,
      ((xs.map some).map (Option.map signature)).mapM id = some (xs.map signature) := by
    intro xs
    induction xs with
    | nil => rfl
    | cons x xs ih =>
      simp only [List.map_cons, Option.map_some, List.mapM_cons, id, ih]
      rfl
  rw [places, List.map_cons, List.mapM_cons, hothers]
  cases d.main with
  | none => rfl
  | some main => rfl

/-- After a first pass that succeeds, the second one binds every definition. -/
theorem bindForms_collected {ns ns' : List Node} {span : Span} {d : Declared} {main : Declaration}
    (hmain : d.main = some main) (hds : declare ns span = .ok (main :: d.others))
    (hstamps : Stamps 0 d ns ns') (names : Names) :
    bindForms names ns' ((main :: d.others).map signature) =
      some (bindFunctions names 0 ns (main :: d.others)) := by
  obtain ⟨-, hnames, hmem⟩ := declare_spec hds
  have hplaces : places d = (main :: d.others).map some := by
    rw [places, hmain]
    rfl
  apply bindForms_eq (nodup_forms hnames hmem) hstamps.length
  · intro j hj
    cases hn : ns[j]? with
    | none =>
      rw [List.getElem?_eq_none_iff] at hn ⊢
      rw [hstamps.length]
      exact hn
    | some n =>
      apply hstamps.other j n hn
      intro x hof
      have hin := (hmem ⟨j, x⟩).mpr (mem_declarationsFrom.mpr ⟨j, n, hn, hof, (Nat.zero_add j).symm⟩)
      exact hj _ hin rfl
  · intro k x hx
    have hin : x ∈ main :: d.others := List.mem_of_getElem? hx
    obtain ⟨j, n, hn, hof, hform⟩ := mem_declarationsFrom.mp ((hmem x).mp hin)
    obtain ⟨index, tag, hstamp, hplace⟩ := hstamps.definition j n x.definition hn hof
    rw [← hform, hplaces, List.getElem?_map, Option.map_eq_some_iff] at hplace
    obtain ⟨y, hy, hyx⟩ := hplace
    cases hyx
    have hindex : index = k := by
      have hlt := (List.getElem?_eq_some_iff.mp hy).1
      apply (List.getElem?_inj (by rw [List.length_map]; exact hlt) hnames).mp
      rw [List.getElem?_map, List.getElem?_map, hy, hx]
    refine ⟨tag, ?_⟩
    rw [Nat.zero_add] at hform
    rw [Nat.zero_add, hform, ← hindex]
    exact hstamp

/-- Resolving never looks at a place that is not there. -/
theorem resolve_eq (root : Node) : resolve root = some (Lisplet.resolve root) := by
  cases root with
  | leaf l => rfl
  | branch ns span tag =>
    rw [resolve, Lisplet.resolve, declare]
    cases hdeclare : declareFrom 0 {} ns with
    | error fault =>
      rw [collectFrom_refused holds_start hdeclare]
      rfl
    | ok d =>
      obtain ⟨ns', s, hcollect, hs, hstamps⟩ := collectFrom_accepted holds_start hdeclare
      rw [hcollect, Option.bind_some]
      dsimp only
      rw [hs.slots, mapM_places]
      cases hmain : d.main with
      | none => rfl
      | some main =>
        have hds : declare ns span = .ok (main :: d.others) := by
          rw [declare, hdeclare]
          dsimp only
          rw [hmain]
        obtain ⟨⟨main', hhead, hname⟩, hnodup, -⟩ := declare_spec hds
        have hnames : s.names = functionNames (main :: d.others) := by
          apply Names.eq_of_toList
          obtain ⟨rfl, -⟩ := List.cons.inj hhead
          rw [hs.names, functionNames, Names.toList_ofList hnodup, List.map_cons, hname]
        dsimp only [Option.map_some]
        rw [hnames, bindForms_collected hmain hds hstamps]
        cases bindFunctions (functionNames (main :: d.others)) 0 ns (main :: d.others) with
        | error fault => rfl
        | ok r => rfl

end Lisplet.Bare
