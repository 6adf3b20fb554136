import Lisplet.Names

/-!
# Numbered names

The names of a numbering as a list: looking a name up finds its first place
there, and numbering a further name keeps the list as a beginning of the new
one, so that no number ever changes.
-/

namespace Lisplet.Names

theorem find?_eq (ns : Names) (x : String) : ns.find? x = ns.toList.idxOf? x := by
  obtain ⟨⟨l⟩⟩ := ns
  exact List.idxOf?_toArray x l

theorem eq_of_toList {a b : Names} (h : a.toList = b.toList) : a = b := by
  obtain ⟨⟨_⟩⟩ := a
  obtain ⟨⟨_⟩⟩ := b
  cases h
  rfl

theorem size_eq (ns : Names) : ns.size = ns.toList.length := rfl

theorem find?_eq_none_iff {ns : Names} {x : String} : ns.find? x = none ↔ x ∉ ns.toList := by
  rw [find?_eq, List.idxOf?_eq_none_iff]

theorem getElem?_of_find? {ns : Names} {x : String} {i : Nat} (h : ns.find? x = some i) :
    ns.toList[i]? = some x := by
  rw [find?_eq, List.idxOf?_eq_some_iff] at h
  obtain ⟨hi, hx, -⟩ := h
  rw [List.getElem?_eq_getElem hi, hx]

theorem find?_injective {ns : Names} {x y : String} {k : Nat} (hx : ns.find? x = some k)
    (hy : ns.find? y = some k) : x = y :=
  Option.some.inj ((getElem?_of_find? hx).symm.trans (getElem?_of_find? hy))

theorem find?_lt {ns : Names} {x : String} {i : Nat} (h : ns.find? x = some i) : i < ns.size := by
  have := getElem?_of_find? h
  exact (List.getElem?_eq_some_iff.mp this).1

theorem toList_intern (ns : Names) (x : String) :
    (ns.intern x).2.toList = if x ∈ ns.toList then ns.toList else ns.toList ++ [x] := by
  unfold intern
  cases hx : ns.find? x with
  | none =>
    rw [find?_eq_none_iff] at hx
    rw [if_neg hx]
    simp [toList]
  | some i =>
    have hmem : x ∈ ns.toList := List.mem_of_getElem? (getElem?_of_find? hx)
    rw [if_pos hmem]

theorem prefix_intern (ns : Names) (x : String) : ns.toList <+: (ns.intern x).2.toList := by
  rw [toList_intern]
  split
  · exact List.prefix_rfl
  · exact List.prefix_append _ _

/-- A number stays the same when more names are numbered. -/
theorem find?_of_prefix {a b : Names} (h : a.toList <+: b.toList) {x : String} {i : Nat}
    (hx : a.find? x = some i) : b.find? x = some i := by
  rw [find?_eq] at hx ⊢
  exact h.findIdx?_eq_some hx

theorem find?_intern (ns : Names) (x : String) :
    (ns.intern x).2.find? x = some (ns.intern x).1 := by
  cases hx : ns.find? x with
  | some i => simp [intern, hx]
  | none =>
    have hnew := find?_eq_none_iff.mp hx
    rw [find?_eq, toList_intern, if_neg hnew, List.idxOf?_eq_some_iff]
    simp only [intern, hx, size_eq]
    refine ⟨by simp, by simp, ?_⟩
    intro j hj heq
    apply hnew
    rw [List.getElem_append_left hj] at heq
    exact heq ▸ List.getElem_mem hj

section
variable {ns : Names} {x : String}

theorem intern_known {i : Nat} (h : ns.find? x = some i) : ns.intern x = (i, ns) := by
  simp [intern, h]

theorem intern_new (h : ns.find? x = none) : ns.intern x = (ns.size, ⟨ns.list.push x⟩) := by
  simp [intern, h]

theorem find?_intern_new (h : ns.find? x = none) (y : String) :
    (ns.intern x).2.find? y = if x = y then some ns.size else ns.find? y := by
  by_cases hxy : x = y
  · rw [if_pos hxy, ← hxy, find?_intern, intern_new h]
  · rw [if_neg hxy]
    cases hy : ns.find? y with
    | some j => exact find?_of_prefix (prefix_intern ns x) hy
    | none =>
      rw [find?_eq_none_iff] at h hy ⊢
      rw [toList_intern, if_neg h, List.mem_append, not_or]
      exact ⟨hy, by simpa using Ne.symm hxy⟩

end

theorem toList_foldl_intern (names : List String) (ns : Names) (h : (ns.toList ++ names).Nodup) :
    (names.foldl (fun ns x => (ns.intern x).2) ns).toList = ns.toList ++ names := by
  induction names generalizing ns with
  | nil => simp
  | cons x names ih =>
    have hx : x ∉ ns.toList := by
      intro hmem
      rw [List.nodup_append] at h
      exact h.2.2 x hmem x (by simp) rfl
    have hnext : (ns.intern x).2.toList = ns.toList ++ [x] := by rw [toList_intern, if_neg hx]
    rw [List.foldl_cons, ih _ (by rw [hnext]; simpa using h), hnext]
    simp

/-- Names that are all different are numbered in their order. -/
theorem toList_ofList {names : List String} (h : names.Nodup) : (ofList names).toList = names :=
  toList_foldl_intern names {} h

theorem find?_ofList {names : List String} (h : names.Nodup) {x : String} {i : Nat} :
    (ofList names).find? x = some i ↔ names[i]? = some x := by
  rw [find?_eq, toList_ofList h]
  constructor
  · intro hx
    obtain ⟨hi, hx, -⟩ := List.idxOf?_eq_some_iff.mp hx
    rw [List.getElem?_eq_getElem hi, hx]
  · intro hx
    obtain ⟨hi, hx⟩ := List.getElem?_eq_some_iff.mp hx
    refine List.idxOf?_eq_some_iff.mpr ⟨hi, hx, ?_⟩
    intro j hj heq
    have := (List.getElem_inj h).mp (heq.trans hx.symm)
    omega

theorem find?_eq_some_iff {ns : Names} (h : ns.toList.Nodup) {x : String} {i : Nat} :
    ns.find? x = some i ↔ ns.toList[i]? = some x := by
  rw [← find?_ofList h, eq_of_toList (toList_ofList h)]

end Lisplet.Names
