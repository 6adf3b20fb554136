import Lisplet.Proofs.Agreement

/-!
# Resolution keeps the meaning

A resolved program and the tree that it comes from run in step: whatever the one
does with slots of a common stack, the other does with names. A call puts its
arguments where the names of the parameters say, and leaves the variables of its
caller alone. `resolve_keeps_meaning` is the statement about whole runs.
-/

namespace Lisplet

open Node

/-! ## Calls -/

theorem Models.push {locals : Names} {m : Machine} {s : Named.State} (h : Models locals m s)
    (v : Option Value) : Models locals (m.push v) s := by
  obtain ⟨heap, stack, sink, log⟩ := m
  obtain ⟨hworld, hdepth, hroom, hvars⟩ := h
  refine ⟨⟨hworld.objects, hworld.sink⟩, hdepth, ?_, ?_⟩
  · exact Nat.le_trans hroom (CallStack.grown_push (fun _ => False) stack v).size
  · intro x k hx
    have hlt : stack.base + k < stack.size :=
      Nat.lt_of_lt_of_le (Nat.add_lt_add_left (Names.find?_lt hx) _) hroom
    rw [← hvars x k hx]
    exact (CallStack.grown_push (fun _ => False) stack v).slots _ hlt fun _ hf => hf.elim

theorem Leaf.Bound.slotIn {functions locals : Names} (l l' : Leaf) (hb : l.Bound functions locals l') :
    l'.SlotIn (· < locals.size) := by
  intro k hk
  cases hx : l.name? with
  | none => rw [hb.unnamed hx] at hk; cases hk
  | some x =>
    cases hf : functions.find? x with
    | some i => rw [hb.function x i hx hf] at hk; cases hk
    | none =>
      obtain ⟨j, hj, hslot⟩ := hb.slot x hx hf
      rw [hslot] at hk; cases hk
      exact Names.find?_lt hj

/-- The variables of a new call by their numbers: parameters are numbered in their
order, here from `d` on. -/
theorem bindArgs_eq {locals : Names} {y : String} {ps : List Node} {vs : List (Option Value)}
    {d k : Nat} (hlen : vs.length = ps.length)
    (hps : ∀ (j : Nat) (m : Node), ps[j]? = some m →
      ∃ x, Named.nameOf? m = some x ∧ locals.find? x = some (d + j))
    (hy : locals.find? y = some (d + k)) : Named.bindArgs ps vs y = vs[k]?.join := by
  induction ps generalizing vs d k with
  | nil => simp [List.eq_nil_of_length_eq_zero hlen, Named.bindArgs]
  | cons p ps ih =>
    cases vs with
    | nil => simp at hlen
    | cons v vs =>
      obtain ⟨x, hx, hfind⟩ := hps 0 p rfl
      rw [Named.bindArgs, hx]
      dsimp only
      cases k with
      | zero =>
        rw [Names.find?_injective hfind hy, if_pos rfl]
        rfl
      | succ k =>
        have hne : some x ≠ some y := by
          intro heq
          rw [Option.some.inj heq, hy] at hfind
          have := Option.some.inj hfind
          omega
        have hrest : Named.bindArgs ps vs y = vs[k]?.join := by
          refine ih (d := d + 1) (by simpa using hlen) ?_ (by rw [hy]; congr 1; omega)
          intro j m hm
          obtain ⟨z, hz, hfz⟩ := hps (j + 1) m (by simpa using hm)
          exact ⟨z, hz, by rw [hfz]; congr 1; omega⟩
        rw [if_neg hne, hrest]
        simp

/-- A new frame holds the variables of the new call. -/
theorem Models.enter {functions locals L : Names} {f : Function} {g : Named.Procedure} {body : List Node}
    (hf : f.Implements functions L g body) {m : Machine} {s : Named.State}
    {vs : List (Option Value)} {start : Nat} (hms : Models locals m s)
    (hsize : m.stack.size = start + vs.length) (hcount : vs.length = g.params.length)
    (hat : ∀ (j : Nat) (u : Option Value), vs[j]? = some u →
      m.stack.slots[start + j]? = some u) :
    Models L (Code.frameOf f vs.length m).2
      { s with vars := Named.bindArgs g.params vs, depth := s.depth + 1 } := by
  have hstack : (Code.frameOf f vs.length m).2.stack = (m.stack.enter vs.length f.locals).2.2 := rfl
  have hfits : vs.length ≤ f.locals := by rw [hcount, ← hf.arity]; exact hf.fits
  refine ⟨⟨?_, hms.sink⟩, ?_, ?_, ?_⟩
  · exact (Heap.objects_releaseAll _ _).trans hms.objects
  · rw [hstack]
    exact congrArg (· + 1) hms.depth
  · rw [hstack, CallStack.size_enter, hf.slots]
    exact Nat.le_refl _
  · intro y k hy
    have hvar : Named.bindArgs g.params vs y = vs[k]?.join := by
      refine bindArgs_eq (d := 0) hcount ?_ (by rw [hy, Nat.zero_add])
      intro j p hp
      obtain ⟨x, hx, hfind⟩ := hf.params j p hp
      exact ⟨x, hx, by rw [hfind, Nat.zero_add]⟩
    rw [hstack, CallStack.slots_enter m.stack (by omega) hfits (hf.slots ▸ Names.find?_lt hy)]
    dsimp only
    rw [hvar]
    by_cases hk : k < vs.length
    · have hu := List.getElem?_eq_getElem hk
      have hbase : m.stack.size - vs.length + k = start + k := by omega
      rw [if_pos hk, hu, hbase, hat k _ hu]
      rfl
    · rw [if_neg hk, List.getElem?_eq_none (Nat.le_of_not_lt hk)]
      rfl

/-- After a call the frame of its caller is as the arguments left it. -/
theorem Models.leave {locals : Names} {f : Function} {m m₁ m₂ : Machine} {s₁ s₂ : Named.State}
    {count : Nat} (hroom : m.stack.base + locals.size ≤ m.stack.size)
    (hbase : m₁.stack.base = m.stack.base) (hsize : m₁.stack.size = m.stack.size + count)
    (hms₁ : Models locals m₁ s₁) (hworld : SameWorld m₂ s₂)
    (hbody : (Code.frameOf f count m₁).2.stack.SameOutside (fun _ => True) m₂.stack) :
    Models locals (m₂.leave (Code.frameOf f count m₁).1)
      { s₂ with vars := s₁.vars, depth := s₁.depth } := by
  have hsize' : (m₁.stack.truncate m.stack.size).2.size = m.stack.size := by
    rw [CallStack.size_truncate, hsize]; omega
  have hgrown : (m₁.stack.truncate m.stack.size).2.Grown (fun _ => False) m₁.stack := by
    refine ⟨by omega, rfl, rfl, ?_⟩
    intro i hi _
    rw [CallStack.slots_truncate, if_pos (by omega)]
  have hleft : (m₁.stack.truncate m.stack.size).2.SameOutside (fun _ => False)
      (m₂.leave (Code.frameOf f count m₁).1).stack :=
    hgrown.leave (by omega) hbody
  refine ⟨⟨(Heap.objects_releaseAll _ _).trans hworld.objects, hworld.sink⟩, ?_, ?_, ?_⟩
  · rw [hleft.depth]
    exact hms₁.depth
  · rw [hleft.base, hleft.size, hsize']
    exact Nat.le_trans (Nat.le_of_eq (by rw [← hbase]; rfl)) hroom
  · intro x k hx
    have hlt := Names.find?_lt hx
    have hin : m₁.stack.base + k < m.stack.size := by omega
    rw [hleft.base, hleft.slots _ fun _ hf => hf.elim, CallStack.slots_truncate]
    exact (if_pos hin).trans (hms₁.vars x k hx)

theorem isFull_eq (c : Code) (depth : Nat) : c.isFull depth = c.limit.any (· ≤ depth) := by
  unfold Code.isFull
  cases c.limit <;> rfl

section
variable {functions locals : Names} {w : Walk} {v : Named.Walk} (hw : w.Follows functions v)
include hw

/-- Arguments lie on the stack in their order, whatever the later ones do. -/
theorem pushAll_follows {ns ns' : List Node} (h : RelatedAll (Leaf.Bound functions locals) ns ns')
    {m : Machine} {s : Named.State} (hms : Models locals m s) :
    (∃ m' vs s', w.pushAll ns' m = .ok () m' ∧ v.evalAll ns s = .ok vs s' ∧ Models locals m' s' ∧
      vs.length = ns.length ∧
      ∀ (j : Nat) (u : Option Value), vs[j]? = some u →
        m'.stack.slots[m.stack.size + j]? = some u) ∨
    ∃ e m' s', w.pushAll ns' m = .error e m' ∧ v.evalAll ns s = .error e s' ∧ SameWorld m' s' := by
  induction ns generalizing ns' m s with
  | nil =>
    cases ns' with
    | nil => exact .inl ⟨m, [], s, rfl, rfl, hms, rfl, fun j u hu => by simp at hu⟩
    | cons _ _ => exact h.elim
  | cons a ns ih =>
    obtain ⟨a', ns', rfl, ha, hns⟩ := relatedAll_cons_inv h
    simp only [Walk.pushAll, Named.Walk.evalAll, bind, EStateM.bind]
    obtain ⟨u, m₁, s₁, hm, hs, hms₁⟩ | ⟨e, m₁, s₁, hm, hs, hworld⟩ := (hw.eval ha m s hms).inv
    · have hkept := hw.keeps.eval (ha.all Leaf.Bound.slotIn) m
      unfold Eval.after at hkept
      rw [hm] at hkept
      rw [hm, hs]
      have hsize : (m₁.push u).stack.size = m.stack.size + 1 := by
        rw [← hkept.size]
        exact CallStack.size_push m₁.stack u
      rcases ih hns (hms₁.push u) with
        ⟨m₂, vs, s₂, hm₂, hs₂, hms₂, hlen, hat⟩ | ⟨e, m₂, s₂, hm₂, hs₂, hworld⟩
      · refine .inl ⟨m₂, u :: vs, s₂, hm₂, ?_, hms₂, by simp [hlen], ?_⟩
        · simp only [hs₂]
          rfl
        · intro j x hx
          cases j with
          | zero =>
            obtain rfl : u = x := by simpa using hx
            have hgrown := pushAll_grown hw.keeps (hns.all Leaf.Bound.slotIn) (m₁.push u)
            unfold Eval.after at hgrown
            rw [hm₂] at hgrown
            have htop : (m₁.push u).stack.slots[m.stack.size]? = some u := by
              rw [← hkept.size]
              exact Array.getElem?_push_size
            rw [Nat.add_zero, ← htop]
            refine hgrown.slots _ (by omega) ?_
            -- the argument lies above the frame, where nothing is assigned
            intro k hk
            have hroom := hms₁.room
            rw [hkept.size] at hroom
            show m.stack.size ≠ m₁.stack.base + k
            omega
          | succ j =>
            have hlater := hat j x (by simpa using hx)
            rw [hsize] at hlater
            rw [← hlater]
            congr 1
            omega
      · refine .inr ⟨e, m₂, s₂, hm₂, ?_, hworld⟩
        simp only [hs₂]
    · rw [hm, hs]
      exact .inr ⟨e, m₁, s₁, rfl, rfl, hworld⟩

theorem Agree.call {n : Named.Code} {c : Code} (hl : Linked functions n c) {x : String} {i : Nat}
    {g : Named.Procedure} (hi : functions.find? x = some i) (hg : n.procedure? x = some g)
    {args args' : List Node} (h : RelatedAll (Leaf.Bound functions locals) args args') (span : Span) :
    Agree locals (c.call w i args' span) (n.call v g x args span) := by
  intro m s hms
  obtain ⟨f, g', L, hf, hname, hg', himpl⟩ := hl.defined x i hi
  rw [hg] at hg'; cases hg'
  unfold Named.Code.call
  rw [hms.depth, ← hl.limit, ← isFull_eq]
  by_cases hfull : c.isFull m.stack.depth = true
  · rw [c.call_full w args' span hf hfull, if_pos hfull]
    exact ⟨rfl, hms.toSameWorld⟩
  rw [if_neg hfull]
  by_cases hcount : args'.length = f.arity
  · have hcount' : args.length = g.params.length := by rw [← h.length_eq, hcount, himpl.arity]
    rw [c.call_accepted w span hf hfull hcount, if_neg (by simpa using hcount')]
    obtain ⟨m₁, vs, s₁, hm₁, hs₁, hms₁, hlen, hat⟩ | ⟨e, m₁, s₁, hm₁, hs₁, hworld⟩ :=
      pushAll_follows hw h hms
    · have hgrown := pushAll_grown hw.keeps (h.all Leaf.Bound.slotIn) m
      unfold Eval.after at hgrown
      rw [hm₁] at hgrown
      have hvs : args'.length = vs.length := by rw [hlen, h.length_eq]
      have hsize : m₁.stack.size = m.stack.size + vs.length := by
        rw [size_pushAll hw.keeps hm₁, hvs]
      rw [hm₁, hs₁, hvs]
      dsimp only
      have hentered := hms₁.enter himpl hsize (hlen.trans hcount') hat
      have hkept := sequence_keeps hw.keeps (allIn_of_forall slotIn_true (c.program.body i))
        (Code.frameOf f vs.length m₁).2
      unfold Eval.after at hkept
      obtain ⟨flow, m₂, s₂, hm₂, hs₂, hms₂⟩ | ⟨e, m₂, s₂, hm₂, hs₂, hworld⟩ :=
        (Agree.sequence hw himpl.body _ _ hentered).inv
      · rw [hm₂] at hkept
        rw [hm₂, hs₂]
        -- the body touches nothing below its frame, so the caller finds what the arguments left
        have hleft := Models.leave hms.room hgrown.base hsize hms₁ hms₂.toSameWorld hkept
        cases flow <;> exact ⟨rfl, hleft⟩
      · rw [hm₂, hs₂]
        exact ⟨rfl, (Heap.objects_releaseAll _ _).trans hworld.objects, hworld.sink⟩
    · rw [hm₁, hs₁]
      exact ⟨rfl, (Heap.objects_releaseAll _ _).trans hworld.objects, hworld.sink⟩
  · have hcount' : args.length ≠ g.params.length := by
      rw [← h.length_eq, ← himpl.arity]; exact hcount
    rw [c.call_miscounted w span hf hfull hcount, if_pos hcount', hname, himpl.arity, h.length_eq]
    exact ⟨rfl, hms.toSameWorld⟩

theorem Agree.callHead {n : Named.Code} {c : Code} (hl : Linked functions n c) {l l' : Leaf}
    (hkind : l.kind = .identifier) (hb : l.Bound functions locals l') {args args' : List Node}
    (h : RelatedAll (Leaf.Bound functions locals) args args') (span : Span) :
    Agree locals (do
      let index ← Eval.checked (functionOf l')
      c.call w index args' span) (n.callHead v l args span) := by
  have hx : l.name? = some l.text := by simp only [Leaf.name?, hkind]
  unfold Named.Code.callHead functionOf
  cases hf : functions.find? l.text with
  | some i =>
    obtain ⟨f, g, L, -, -, hg, -⟩ := hl.defined l.text i hf
    rw [hb.function l.text i hx hf, hg]
    exact Agree.call hw hl hf hg h span
  | none =>
    obtain ⟨k, -, hslot⟩ := hb.slot l.text hx hf
    rw [hslot, hl.undefined l.text hf, hb.alike.text_eq, hb.alike.span_eq]
    exact fun _ _ hms => ⟨rfl, hms.toSameWorld⟩

/-! ## Expressions -/

theorem Agree.assign {n : Named.Code} {c : Code} (hl : Linked functions n c)
    {target target' e e' : Node} (ht : Related (Leaf.Bound functions locals) target target')
    (he : Related (Leaf.Bound functions locals) e e') :
    Agree locals (w.assign target' e') (n.assign v target e) := by
  refine .variable_bind hl ht ?_
  intro x k hx
  exact .bind (hw.eval he) fun value => .retain_bind (.bind (.setSlot hx value) fun _ => .pure _)

theorem Agree.evalKeyword {n : Named.Code} {c : Code} (hl : Linked functions n c) (k : Keyword)
    {args args' : List Node} (h : RelatedAll (Leaf.Bound functions locals) args args') (span : Span) :
    Agree locals (Code.evalKeyword w k args' span) (n.evalKeyword v k args span) := by
  unfold Code.evalKeyword Named.Code.evalKeyword
  rw [checkArity_related h]
  refine .checked_bind ?_
  intro _ hcheck
  cases k with
  | and =>
    obtain ⟨a, b, rfl⟩ := two_operands hcheck rfl
    obtain ⟨a', b', rfl, ha, hb⟩ := relatedAll_two_inv h
    refine .bind (hw.eval ha) fun value => .bind (.truthy value) fun t => ?_
    cases t with
    | true => exact .release_bind (hw.eval hb)
    | false => exact .pure value
  | or =>
    obtain ⟨a, b, rfl⟩ := two_operands hcheck rfl
    obtain ⟨a', b', rfl, ha, hb⟩ := relatedAll_two_inv h
    refine .bind (hw.eval ha) fun value => .bind (.truthy value) fun t => ?_
    cases t with
    | true => exact .pure value
    | false => exact .release_bind (hw.eval hb)
  | ternary =>
    obtain ⟨cond, a, b, rfl⟩ := three_operands hcheck rfl
    obtain ⟨cond', _, rfl, hcond, h⟩ := relatedAll_cons_inv h
    obtain ⟨a', b', rfl, ha, hb⟩ := relatedAll_two_inv h
    refine .bind (.test hw hcond) fun t => ?_
    cases t with
    | true => exact hw.eval ha
    | false => exact hw.eval hb
  | list =>
    exact .bind (.evalAll hw h) fun vs =>
      .bind (.make fun _ _ e => newList_congr e vs.toArray) fun _ => .pure _
  | table =>
    exact .bind (.addEntries hw {} h) fun t =>
      .bind (.make fun _ _ e => newTable_congr e t) fun _ => .pure _
  | set =>
    obtain ⟨target, e, rfl⟩ := two_operands hcheck rfl
    obtain ⟨target', e', rfl, ht, he⟩ := relatedAll_two_inv h
    exact .assign hw hl ht he
  | defun | ifThen | otherwise | whileLoop | forEach | ret | print | setItem | push | remove =>
    exact .fail _
  | _ => exact .bind (.evalAll hw h) fun vs => .operation _ vs

theorem Agree.evalNode {n : Named.Code} {c : Code} (hl : Linked functions n c) {a a' : Node}
    (h : Related (Leaf.Bound functions locals) a a') :
    Agree locals (c.evalNode w a') (n.evalNode v a) := by
  match a, h with
  | .leaf l, h =>
    obtain ⟨l', rfl, hb⟩ := related_leaf_inv h
    exact .evalLeaf hl hb
  | .branch [] span tag, h =>
    obtain ⟨cs', tag', rfl, hcs⟩ := related_branch_inv h
    rw [relatedAll_nil_inv hcs]
    exact .fail _
  | .branch (.branch cs s tag :: rest) span tag', h =>
    obtain ⟨head', rest', _, rfl, hhead, -⟩ := related_cons_inv h
    obtain ⟨cs', _, rfl, -⟩ := related_branch_inv hhead
    exact .fail _
  | .branch (.leaf head :: args) span tag, h =>
    obtain ⟨head', args', _, rfl, hhead, hargs⟩ := related_cons_inv h
    obtain ⟨l', rfl, hb⟩ := related_leaf_inv hhead
    unfold Code.evalNode Named.Code.evalNode
    dsimp only
    rw [hb.kind, hb.alike.span_eq]
    cases hk : head.kind with
    | keyword k => exact .evalKeyword hw hl k hargs span
    | identifier => exact .callHead hw hl hk hb hargs span
    | _ => exact .fail _

/-! ## Statements -/

theorem Agree.runKeyword {n : Named.Code} {c : Code} (hl : Linked functions n c) (fuel : Nat)
    (k : Keyword) {args args' : List Node}
    (h : RelatedAll (Leaf.Bound functions locals) args args') (span : Span) :
    Agree locals (Code.runKeyword w fuel k args' span) (n.runKeyword v fuel k args span) := by
  unfold Code.runKeyword Named.Code.runKeyword
  rw [checkArity_related h]
  refine .checked_bind ?_
  intro _ hcheck
  have hstore (k : Keyword) : Agree locals
      (do let vs ← w.evalAll args'; Eval.onHeap (store k vs); Pure.pure Flow.normal)
      (do let vs ← v.evalAll args; Named.make fun h => ((), store k vs h); Pure.pure Flow.normal) :=
    .bind (.evalAll hw h) fun vs => .bind (.change fun _ _ e => store_congr e k vs) fun _ => .pure _
  cases k with
  | set =>
    obtain ⟨target, e, rfl⟩ := two_operands hcheck rfl
    obtain ⟨target', e', rfl, ht, he⟩ := relatedAll_two_inv h
    exact .bind (.assign hw hl ht he) fun _ => .release_bind (.pure _)
  | print =>
    obtain ⟨e, rfl⟩ := one_operand hcheck rfl
    obtain ⟨e', _, rfl, he, hnil⟩ := relatedAll_cons_inv h
    rw [relatedAll_nil_inv hnil]
    refine .bind (hw.eval he) fun value => ?_
    exact .bind ((Agree.print fuel value span).thenClose (recount_release value)) fun _ => .pure _
  | setItem => exact hstore _
  | push => exact hstore _
  | remove => exact hstore _
  | ifThen =>
    dsimp only
    obtain ⟨hn, hn'⟩ | ⟨cond, a, cond', a', hcond, ha, hrest⟩ := ifParts_related Leaf.Bound.kind h
    · rw [hn, hn']
      exact .fail _
    · obtain ⟨hp, hp'⟩ | ⟨b, b', hb, hp, hp'⟩ := hrest
      · rw [hp, hp']
        refine .bind (.test hw hcond) fun t => ?_
        cases t with
        | true => exact hw.block ha
        | false => exact .pure _
      · rw [hp, hp']
        refine .bind (.test hw hcond) fun t => ?_
        cases t with
        | true => exact hw.block ha
        | false => exact hw.block hb
  | whileLoop =>
    match args, h with
    | [], h => rw [relatedAll_nil_inv h]; exact .fail _
    | cond :: body, h =>
      obtain ⟨cond', body', rfl, hcond, hbody⟩ := relatedAll_cons_inv h
      exact .whileLoop hw hcond hbody fuel
  | forEach =>
    match args, h with
    | [], h => rw [relatedAll_nil_inv h]; exact .fail _
    | [_], h =>
      obtain ⟨_, _, rfl, -, h⟩ := relatedAll_cons_inv h
      rw [relatedAll_nil_inv h]
      exact .fail _
    | var :: list :: body, h =>
      obtain ⟨var', _, rfl, hvar, h⟩ := relatedAll_cons_inv h
      obtain ⟨list', body', rfl, hlist, hbody⟩ := relatedAll_cons_inv h
      refine .variable_bind hl hvar ?_
      intro x k hx
      refine .bind (hw.eval hlist) ?_
      intro value
      match value with
      | some (.list r) =>
        exact (Agree.forLoop hw hx hbody r fuel 0).thenClose (recount_release _)
      | none | some (.bool _) | some (.int _) | some (.float _) | some (.str _ _)
      | some (.tuple _) | some (.table _) => exact .release_bind (.pure _)
  | ret =>
    obtain rfl | ⟨e, rfl⟩ := return_operands hcheck rfl
    · rw [relatedAll_nil_inv h]
      exact .pure _
    · obtain ⟨e', _, rfl, he, hnil⟩ := relatedAll_cons_inv h
      rw [relatedAll_nil_inv hnil]
      exact .bind (hw.eval he) fun _ => .pure _
  | _ => exact .fail _

theorem Agree.runForm {n : Named.Code} {c : Code} (hl : Linked functions n c) (fuel : Nat)
    {children children' : List Node}
    (h : RelatedAll (Leaf.Bound functions locals) children children') (span : Span) :
    Agree locals (c.runForm w fuel children' span) (n.runForm v fuel children span) := by
  match children, h with
  | [], h => rw [relatedAll_nil_inv h]; exact .pure _
  | .branch cs s tag :: rest, h =>
    obtain ⟨head', rest', rfl, hhead, -⟩ := relatedAll_cons_inv h
    obtain ⟨cs', _, rfl, -⟩ := related_branch_inv hhead
    exact .fail _
  | .leaf head :: args, h =>
    obtain ⟨head', args', rfl, hhead, hargs⟩ := relatedAll_cons_inv h
    obtain ⟨l', rfl, hb⟩ := related_leaf_inv hhead
    unfold Code.runForm Named.Code.runForm
    dsimp only
    rw [hb.kind, hb.alike.span_eq]
    cases hk : head.kind with
    | keyword k => exact .runKeyword hw hl fuel k hargs span
    | identifier =>
      dsimp only
      rw [← bind_assoc]
      exact .bind (.callHead hw hl hk hb hargs span) fun _ => .release_bind (.pure _)
    | _ => exact .fail _

theorem Agree.runBlock {n : Named.Code} {c : Code} (hl : Linked functions n c) (fuel : Nat)
    {a a' : Node} (h : Related (Leaf.Bound functions locals) a a') :
    Agree locals (c.runBlock w fuel a') (n.runBlock v fuel a) := by
  match a, h with
  | .leaf l, h =>
    obtain ⟨l', rfl, hb⟩ := related_leaf_inv h
    have hword : statementLeaf l' = statementLeaf l := by
      simp only [statementLeaf, Leaf.keyword?, hb.kind, hb.alike.span_eq]
    unfold Code.runBlock Named.Code.runBlock
    dsimp only
    rw [hword]
    exact .fail _
  | .branch [] span tag, h =>
    obtain ⟨cs', tag', rfl, hcs⟩ := related_branch_inv h
    obtain rfl := relatedAll_nil_inv hcs
    exact .runForm hw hl fuel hcs span
  | .branch (.branch cs s tag :: rest) span tag', h =>
    obtain ⟨head', rest', _, rfl, hhead, hrest⟩ := related_cons_inv h
    obtain ⟨cs', _, rfl, -⟩ := related_branch_inv hhead
    exact .sequence hw ⟨hhead, hrest⟩
  | .branch (.leaf head :: args) span tag, h =>
    obtain ⟨head', args', _, rfl, hhead, hargs⟩ := related_cons_inv h
    obtain ⟨l', rfl, hb⟩ := related_leaf_inv hhead
    have hall : RelatedAll (Leaf.Bound functions locals) (.leaf head :: args) (.leaf l' :: args') :=
      ⟨hhead, hargs⟩
    exact .runForm hw hl fuel hall span

end

/-! ## Whole runs -/

/-- With the same fuel, evaluation of the bound tree follows evaluation with names. -/
theorem walk_follows {functions : Names} {n : Named.Code} {c : Code} (hl : Linked functions n c)
    (fuel : Nat) : (c.walk fuel).Follows functions (n.walk fuel) := by
  induction fuel with
  | zero => exact ⟨walk_keeps c 0, fun _ => .exhausted, fun _ => .exhausted⟩
  | succ fuel ih =>
    exact ⟨walk_keeps c (fuel + 1), fun h => .evalNode ih hl h, fun h => .runBlock ih hl fuel h⟩

/-- What can be seen of a run: its end, its output and the objects that it leaves. -/
structure Observation where
  ending : Except Stop (Option Value)
  sink : Sink
  objects : Array Object

def observe : EStateM.Result Stop Machine (Option Value) → Observation
  | .ok v m => ⟨.ok v, m.sink, m.heap.objects⟩
  | .error e m => ⟨.error e, m.sink, m.heap.objects⟩

def Named.observe : EStateM.Result Stop Named.State (Option Value) → Observation
  | .ok v s => ⟨.ok v, s.sink, s.heap.objects⟩
  | .error e s => ⟨.error e, s.sink, s.heap.objects⟩

theorem observe_eq {rel : Machine → Named.State → Prop}
    (hrel : ∀ m s, rel m s → SameWorld m s) {r : EStateM.Result Stop Machine (Option Value)}
    {r' : EStateM.Result Stop Named.State (Option Value)} (h : SameResult rel r r') :
    observe r = Named.observe r' := by
  obtain ⟨a, m, s, rfl, rfl, hms⟩ | ⟨e, m, s, rfl, rfl, hworld⟩ := h.inv
  · simp only [observe, Named.observe, (hrel m s hms).sink, (hrel m s hms).objects]
  · simp only [observe, Named.observe, hworld.sink, hworld.objects]

theorem observe_thenClose_note (act : Eval (Option Value)) (e : Machine → Event) (m : Machine) :
    observe (act.thenClose (fun m => m.note (e m)) m) = observe (act m) := by
  unfold Eval.thenClose
  cases act m <;> rfl

theorem observe_run {functions : Names} {root : Node} {p : Program} (h : Resolved functions root p)
    (limit : Option Nat) (sink : Sink) (log : Log) (fuel : Nat) :
    observe ((Interpreter.start p limit sink log).code.run fuel
      (Interpreter.start p limit sink log).machine) =
    Named.observe (Named.run root limit sink fuel) := by
  have hheap : p.load.2 = (loadNode {} root).2 := (Related.load loadsAlike_alike {} h.alike).1
  let c : Code := ⟨p.load.1, limit⟩
  let n : Named.Code := ⟨(loadNode {} root).1, limit⟩
  have hlinked : Linked functions n c := h.linked limit
  obtain ⟨f, g, L, hf, -, hg, himpl⟩ := hlinked.defined mainName 0 hlinked.main
  have hnone : RelatedAll (Leaf.Bound functions {}) [] [] := trivial
  have hagree : Agree {} (c.call (c.walk fuel) 0 [] g.span)
      (n.call (n.walk fuel) g mainName [] g.span) :=
    Agree.call (walk_follows hlinked fuel) hlinked hlinked.main hg hnone g.span
  let m : Machine := ({ heap := p.load.2, sink := sink, log := log } : Machine).note .mainStarted
  let s : Named.State := { heap := (loadNode {} root).2, sink := sink }
  have hstart : Models {} m s := by
    refine ⟨⟨congrArg Heap.objects hheap, rfl⟩, rfl, Nat.le_refl _, ?_⟩
    intro x k hx
    exact absurd (Names.find?_lt hx) (Nat.not_lt_zero k)
  have hrun : (Interpreter.start p limit sink log).code.run fuel
      (Interpreter.start p limit sink log).machine =
      ((c.call (c.walk fuel) 0 [] g.span).thenClose fun m => m.note (.mainFinished m.stack.size)) m := by
    have hf' : (Interpreter.start p limit sink log).code.program.function? 0 = some f := hf
    unfold Code.run
    rw [hf', ← himpl.span]
    rfl
  have hrun' : Named.run root limit sink fuel = n.call (n.walk fuel) g mainName [] g.span s := by
    unfold Named.run
    have hg' : Named.Code.procedure? ⟨(loadNode {} root).1, limit⟩ mainName = some g := hg
    simp only [hg']
    rfl
  rw [hrun, hrun', observe_thenClose_note]
  exact observe_eq (fun _ _ h => h.toSameWorld) (hagree m s hstart)

/-- Resolution keeps the meaning of a program: whatever its limit, its sink and its
fuel, its run looks from outside as a run with names does. In particular nothing
in a function's body writes beyond the function's own slots, where the arguments
of a call in preparation wait, and the variables of a new call are absent but for
its parameters. -/
theorem resolve_keeps_meaning {root : Node} {p : Program} (hroot : root.All Leaf.OnlyNameBound)
    (h : resolve root = .ok p) (limit : Option Nat) (sink : Sink) (log : Log) (fuel : Nat) :
    let i := Interpreter.start p limit sink log
    observe (i.code.run fuel i.machine) = Named.observe (Named.run root limit sink fuel) ∧
    ∀ (index : Nat) (f : Function), p.function? index = some f →
      (∀ (statement n : Node) (m : Machine) (k : Nat), statement ∈ i.code.program.body index →
        n.OccursIn statement → m.stack.base + f.locals ≤ k →
        ((i.code.eval fuel n).after m).stack.slots[k]? = m.stack.slots[k]? ∧
        ((i.code.block fuel n).after m).stack.slots[k]? = m.stack.slots[k]?) ∧
      ∀ (m : Machine) (k : Nat), f.arity ≤ m.stack.size → f.arity ≤ k → k < f.locals →
        let entered := (Code.frameOf f f.arity m).2.stack
        entered.slots[entered.base + k]? = some none := by
  obtain ⟨functions, hres⟩ := resolve_spec h hroot
  refine ⟨observe_run hres limit sink log fuel, ?_⟩
  intro index f hf
  obtain ⟨_, g, locals, -, -, himpl⟩ := hres.implements hf
  refine ⟨?_, ?_⟩
  · intro statement n m k hs hn hk
    have hslots : n.All (Leaf.SlotIn (· < locals.size)) :=
      hn.all (allIn_iff.mp (himpl.body.all Leaf.Bound.slotIn) statement hs)
    have hout : ∀ j, j < locals.size → k ≠ m.stack.base + j := by
      intro j hj
      rw [himpl.slots] at hk
      omega
    have hw := walk_keeps (Interpreter.start p limit sink log).code fuel
    exact ⟨(hw.eval hslots m).slots k hout, (hw.block hslots m).slots k hout⟩
  · intro m k hsize hk hlt
    exact (CallStack.slots_enter m.stack hsize himpl.fits hlt).trans (if_neg (Nat.not_lt.mpr hk))

def settingArgument : List Char :=
  "(defun (main) (set x 1) (return (f x (set x 2)))) (defun (f a b) (set c b) (return a))".toList

theorem resolve_keeps_meaning_settingArgument :
    ∃ (r : Reading) (p : Program), readTree settingArgument = .ok r ∧
      r.root.All Leaf.OnlyNameBound ∧ resolve r.root = .ok p ∧
      observe ((Interpreter.start p none {} {}).code.run 20 (Interpreter.start p none {} {}).machine) =
        Named.observe (Named.run r.root none {} 20) := by
  have hsome : ((readTree settingArgument).toOption.bind fun r =>
      (resolve r.root).toOption).isSome = true := by decide +kernel
  cases hr : readTree settingArgument with
  | error e => rw [hr] at hsome; cases hsome
  | ok r =>
    cases hp : resolve r.root with
    | error e => rw [hr] at hsome; simp [Except.toOption, hp] at hsome
    | ok p =>
      have hroot : r.root.All Leaf.OnlyNameBound := readTree_all (fun _ _ => rfl) hr
      exact ⟨r, p, rfl, hroot, hp, (resolve_keeps_meaning hroot hp none {} {} 20).1⟩

end Lisplet
