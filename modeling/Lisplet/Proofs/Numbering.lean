import Lisplet.Proofs.Slots
import Mathlib.Data.List.Nodup
import Std.Data.HashMap

/-!
# Names and symbols

The numbers of names can be kept in two places: a list says which name a symbol stands
for, and a hash map says which symbol a name has. They are filled together and cleared
together, and whatever was asked of them they are inverse to each other. `Names` is the
list alone, searched from its front.
-/

namespace Lisplet

/-! ## Counting different names -/

theorem nodup_eraseDups : ∀ xs : List String, xs.eraseDups.Nodup
  | [] => List.nodup_nil
  | x :: xs => by
    rw [List.eraseDups_cons, List.nodup_cons]
    exact ⟨by simp, nodup_eraseDups _⟩
termination_by xs => xs.length
decreasing_by exact Nat.lt_succ_of_le (List.length_filter_le _ _)

theorem length_eraseDups_le {xs ys : List String} (h : xs ⊆ ys) :
    xs.eraseDups.length ≤ ys.eraseDups.length :=
  (nodup_eraseDups xs).length_le_of_subset fun _ hx =>
    List.mem_eraseDups.mpr (h (List.mem_eraseDups.mp hx))

/-- Among the different names a name stands behind those that came before it. -/
theorem idxOf?_eraseDups {xs : List String} {x : String} (hx : x ∈ xs) :
    xs.eraseDups.idxOf? x = some (xs.takeWhile (· != x)).eraseDups.length := by
  obtain ⟨front, back, rfl, hfront⟩ := List.eq_append_cons_of_mem hx
  have hfresh : x ∉ front.eraseDups := fun h => hfront (List.mem_eraseDups.mp h)
  have htake : (front ++ x :: back).takeWhile (· != x) = front := by
    rw [List.takeWhile_append_of_pos (fun y hy => by simpa using fun he : y = x => hfront (he ▸ hy)),
      List.takeWhile_cons_of_neg (by simp), List.append_nil]
  have hsplit : ∃ rest, (front ++ x :: back).eraseDups = front.eraseDups ++ x :: rest := by
    rw [List.eraseDups_append]
    simp [List.removeAll, hfront, List.eraseDups_cons]
  obtain ⟨rest, hsplit⟩ := hsplit
  rw [htake, hsplit, List.idxOf?_eq_some_iff]
  refine ⟨by simp, by simp, fun j hj heq => hfresh ?_⟩
  rw [List.getElem_append_left hj] at heq
  exact heq ▸ List.getElem_mem hj

namespace Bare

/-! ## The two-part table -/

structure Interner where
  names : Array String := #[]
  symbols : Std.HashMap String UInt32 := {}

namespace Interner

def size (t : Interner) : Nat := t.names.size

def lookup (t : Interner) (name : String) : Option UInt32 := t.symbols[name]?

def contains (t : Interner) (name : String) : Bool := t.symbols.contains name

def resolve (t : Interner) (s : UInt32) : Option String := t.names[s.toNat]?

/-- The symbol of a new name is the number of names before it, which is expected to fit
into 32 bits. -/
def intern (t : Interner) (name : String) : Option (UInt32 × Interner) :=
  match t.symbols[name]? with
  | some s => some (s, t)
  | none =>
    if t.names.size < UInt32.size then
      let s := UInt32.ofNat t.names.size
      some (s, ⟨t.names.push name, t.symbols.insert name s⟩)
    else none

def clear (_ : Interner) : Interner := {}

def entries (t : Interner) : List (UInt32 × String) :=
  t.names.toList.mapIdx fun i name => (UInt32.ofNat i, name)

def withReserved (reserved : List String) : Option Interner :=
  reserved.foldlM (fun t name => (t.intern name).map Prod.snd) {}

theorem intern_known {t : Interner} {x : String} {s : UInt32} (h : t.lookup x = some s) :
    t.intern x = some (s, t) := by
  unfold lookup at h
  simp [intern, h]

theorem lookup_intern {t t' : Interner} {x : String} {s : UInt32} (h : t.intern x = some (s, t')) :
    ∀ y, t'.lookup y = if x = y then some s else t.lookup y := by
  intro y
  unfold intern at h
  split at h
  · rename_i s' hs
    cases h
    by_cases hxy : x = y
    · rw [if_pos hxy, ← hxy, lookup, hs]
    · rw [if_neg hxy]
  · split at h
    · cases h
      simp [lookup, Std.HashMap.getElem?_insert]
    · cases h

/-! ## One request -/

structure Shows (t : Interner) (ns : Names) (asked : List String) : Prop where
  names : t.names = ns.list
  symbols : ∀ x, t.symbols[x]? = (ns.find? x).map UInt32.ofNat
  order : ns.toList = asked.eraseDups
  fits : ns.size ≤ UInt32.size

theorem shows_empty : Shows {} {} [] where
  names := rfl
  symbols x := by simp [Names.find?]
  order := rfl
  fits := Nat.zero_le _

section
variable {t : Interner} {ns : Names} {asked : List String} (h : t.Shows ns asked)
include h

theorem Shows.nodup : ns.toList.Nodup := h.order ▸ nodup_eraseDups asked

theorem Shows.size_eq : t.size = ns.size := by
  rw [size, h.names]
  rfl

theorem Shows.intern {x : String} (hfits : (asked ++ [x]).eraseDups.length ≤ UInt32.size) :
    ∃ t', t.intern x = some (UInt32.ofNat (ns.intern x).1, t') ∧
      t'.Shows (ns.intern x).2 (asked ++ [x]) := by
  have horder : (ns.intern x).2.toList = (asked ++ [x]).eraseDups := Names.toList_internAll h.order [x]
  rw [← horder, ← Names.size_eq] at hfits
  unfold Interner.intern
  rw [h.symbols]
  cases hx : ns.find? x with
  | some i =>
    rw [Names.intern_known hx] at horder hfits ⊢
    exact ⟨t, rfl, h.names, h.symbols, horder, hfits⟩
  | none =>
    have hfind := Names.find?_intern_new hx
    rw [Names.intern_new hx] at horder hfits hfind ⊢
    have hsize : t.names.size = ns.size := h.size_eq
    -- the bound holds with the new name, so its number is below it
    have hlt : ns.size < UInt32.size := by simpa [Names.size, Nat.succ_le_iff] using hfits
    simp only [Option.map_none, hsize, if_pos hlt]
    refine ⟨_, rfl, by rw [h.names], fun y => ?_, horder, hfits⟩
    rw [hfind, Std.HashMap.getElem?_insert, h.symbols]
    by_cases hxy : x = y <;> simp [hxy]

theorem Shows.lookup_eq_some_iff {x : String} {s : UInt32} :
    t.lookup x = some s ↔ ns.find? x = some s.toNat := by
  unfold lookup
  rw [h.symbols]
  constructor
  · intro hs
    obtain ⟨i, hi, rfl⟩ := Option.map_eq_some_iff.mp hs
    have hlt := Nat.lt_of_lt_of_le (Names.find?_lt hi) h.fits
    rw [hi, UInt32.toNat_ofNat_of_lt' hlt]
  · intro hs
    rw [hs, Option.map_some, UInt32.ofNat_toNat]

theorem Shows.find?_eq (x : String) : ns.find? x = (t.lookup x).map UInt32.toNat := by
  cases hs : t.lookup x with
  | some s => exact h.lookup_eq_some_iff.mp hs
  | none =>
    rw [lookup, h.symbols] at hs
    simpa using hs

theorem Shows.lookup_of_mem {x : String} (hx : x ∈ asked) :
    (t.lookup x).map UInt32.toNat = some (asked.takeWhile (· != x)).eraseDups.length := by
  rw [← h.find?_eq, Names.find?_eq, h.order, idxOf?_eraseDups hx]

theorem Shows.contains_eq_true_iff {x : String} : t.contains x = true ↔ x ∈ asked := by
  rw [contains, Std.HashMap.contains_eq_isSome_getElem?, h.symbols, Option.isSome_map,
    ← List.mem_eraseDups, ← h.order, ← not_iff_not, ← Names.find?_eq_none_iff]
  simp

theorem Shows.resolve_eq_some_iff {x : String} {s : UInt32} :
    t.resolve s = some x ↔ t.lookup x = some s := by
  rw [h.lookup_eq_some_iff, Names.find?_eq_some_iff h.nodup, resolve, h.names, Names.toList,
    Array.getElem?_toList]

theorem Shows.size_le : t.size ≤ UInt32.size := h.size_eq ▸ h.fits

theorem Shows.symbols_entries : t.entries.map (·.1.toNat) = List.range t.size := by
  refine List.ext_getElem (by simp [entries, size]) fun i hi hi' => ?_
  have hlt : i < t.names.size := by simpa [size] using hi'
  simp [entries, UInt32.toNat_ofNat_of_lt' (Nat.lt_of_lt_of_le hlt h.size_le)]

theorem Shows.mem_entries {x : String} {s : UInt32} : (s, x) ∈ t.entries ↔ t.lookup x = some s := by
  rw [← h.resolve_eq_some_iff, entries, List.mem_mapIdx, resolve, Array.getElem?_eq_some_iff]
  constructor
  · rintro ⟨i, hi, heq⟩
    obtain ⟨rfl, rfl⟩ := Prod.mk.inj heq
    have hlt : i < UInt32.size := Nat.lt_of_lt_of_le hi h.size_le
    simp only [UInt32.toNat_ofNat_of_lt' hlt, Array.getElem_toList]
    exact ⟨hi, trivial⟩
  · rintro ⟨hi, rfl⟩
    exact ⟨s.toNat, hi, by simp⟩

end

end Interner

end Bare

/-! ## Requests -/

inductive Request
  | intern (name : String)
  | lookup (name : String)
  | contains (name : String)
  | clear

namespace Request

def onInterner (t : Bare.Interner) : Request → Option Bare.Interner
  | intern name => (t.intern name).map Prod.snd
  | lookup _ | contains _ => some t
  | clear => some t.clear

def onNames (ns : Names) : Request → Names
  | intern name => (ns.intern name).2
  | lookup _ | contains _ => ns
  | clear => {}

/-- The names to be numbered since the table was last cleared. -/
def note (asked : List String) : Request → List String
  | intern name => asked ++ [name]
  | lookup _ | contains _ => asked
  | clear => []

def name? : Request → Option String
  | intern name => some name
  | lookup _ | contains _ | clear => none

/-- The names that are asked for are never too many at a time. -/
def Fit (asked : List String) (requests : List Request) : Prop :=
  ∀ front, front <+: requests → (front.foldl note asked).eraseDups.length ≤ UInt32.size

end Request

open Request

section
variable {t : Bare.Interner} {ns : Names} {asked : List String} (h : t.Shows ns asked)
include h

theorem shows_onInterner (r : Request) (hfits : (r.note asked).eraseDups.length ≤ UInt32.size) :
    ∃ t', r.onInterner t = some t' ∧ t'.Shows (r.onNames ns) (r.note asked) := by
  cases r with
  | intern x =>
    obtain ⟨t', ht', hshows⟩ := h.intern hfits
    exact ⟨t', by rw [onInterner, ht']; rfl, hshows⟩
  | lookup x => exact ⟨t, rfl, h⟩
  | contains x => exact ⟨t, rfl, h⟩
  | clear => exact ⟨{}, rfl, Bare.Interner.shows_empty⟩

theorem shows_foldlM {requests : List Request} (hfits : Fit asked requests) :
    ∃ t', requests.foldlM onInterner t = some t' ∧
      t'.Shows (requests.foldl onNames ns) (requests.foldl note asked) := by
  induction requests generalizing t ns asked with
  | nil => exact ⟨t, rfl, h⟩
  | cons r requests ih =>
    obtain ⟨t', ht', hshows⟩ := shows_onInterner h r (hfits [r] (by simp))
    rw [List.foldlM_cons, ht']
    exact ih hshows fun front hfront => hfits (r :: front) (List.cons_prefix_cons.mpr ⟨rfl, hfront⟩)

end

theorem lookup_onInterner {t t' : Bare.Interner} {r : Request} (hr : r ≠ .clear)
    (h : r.onInterner t = some t') {x : String} {s : UInt32} (hx : t.lookup x = some s) :
    t'.lookup x = some s := by
  cases r with
  | intern y =>
    obtain ⟨⟨s', _⟩, hy, rfl⟩ := Option.map_eq_some_iff.mp h
    rw [Bare.Interner.lookup_intern hy]
    split
    · rename_i hyx
      subst hyx
      rw [Bare.Interner.intern_known hx] at hy
      cases hy
      rfl
    · exact hx
  | lookup y => cases h; exact hx
  | contains y => cases h; exact hx
  | clear => exact absurd rfl hr

theorem foldl_note_intern (asked names : List String) :
    (names.map intern).foldl note asked = asked ++ names := by
  induction names generalizing asked with
  | nil => simp
  | cons x names ih => rw [List.map_cons, List.foldl_cons, ih, note, List.append_assoc, List.singleton_append]

theorem shows_withReserved {reserved : List String} (h : reserved.eraseDups.length ≤ UInt32.size) :
    ∃ t, Bare.Interner.withReserved reserved = some t ∧ t.Shows (Names.ofList reserved) reserved := by
  have hfits : Fit [] (reserved.map intern) := by
    intro front hfront
    obtain ⟨names, hnames, rfl⟩ := List.prefix_map_iff.mp hfront
    rw [foldl_note_intern, List.nil_append]
    exact (length_eraseDups_le hnames.subset).trans h
  obtain ⟨t, ht, hshows⟩ := shows_foldlM Bare.Interner.shows_empty hfits
  rw [foldl_note_intern, List.foldl_map, List.nil_append] at hshows
  rw [List.foldlM_map] at ht
  exact ⟨t, ht, hshows⟩

/-- Whatever is asked of a table with reserved names, as long as there are not more than 2^32
names in it at a time: its list and its map are inverse, its symbols are those below its size,
and the symbol of a name is the number of names that came before it, counted since the last
clearing. Only clearing takes a symbol from its name. `Names` numbers the names alike. -/
theorem names_numbered_by_first_use {reserved : List String} {requests : List Request}
    (h : Fit reserved requests) :
    let asked := requests.foldl note reserved
    let ns := requests.foldl onNames (Names.ofList reserved)
    ∃ t, (Bare.Interner.withReserved reserved).bind (requests.foldlM onInterner ·) = some t ∧
      (∀ x s, t.lookup x = some s ↔ t.resolve s = some x) ∧
      (∀ s : UInt32, (∃ x, t.lookup x = some s) ↔ s.toNat < t.size) ∧
      (∀ x, (t.contains x = true ↔ x ∈ asked) ∧ t.contains x = (t.lookup x).isSome) ∧
      (∀ x ∈ asked, ∃ s, t.lookup x = some s ∧
        s.toNat = (asked.takeWhile (· != x)).eraseDups.length) ∧
      (∀ x s, t.lookup x = some s → t.intern x = some (s, t)) ∧
      (∀ x s t', t.intern x = some (s, t') → t'.lookup x = some s) ∧
      (∀ (r : Request) t', r ≠ .clear → r.onInterner t = some t' →
        ∀ x s, t.lookup x = some s → t'.lookup x = some s) ∧
      (∀ x, onInterner t (.lookup x) = some t ∧ onInterner t (.contains x) = some t) ∧
      t.entries.map (·.1.toNat) = List.range t.size ∧
      (∀ s x, (s, x) ∈ t.entries ↔ t.lookup x = some s) ∧
      t.names = ns.list ∧ ∀ x, ns.find? x = (t.lookup x).map UInt32.toNat := by
  intro asked ns
  have hreserved : reserved.eraseDups.length ≤ UInt32.size := h [] List.nil_prefix
  obtain ⟨t₀, ht₀, hshows₀⟩ := shows_withReserved hreserved
  obtain ⟨t, ht, hshows⟩ := shows_foldlM hshows₀ h
  refine ⟨t, by rw [ht₀, Option.bind_some, ht], fun x s => hshows.resolve_eq_some_iff.symm,
    fun s => ?_, fun x => ⟨hshows.contains_eq_true_iff, Std.HashMap.contains_eq_isSome_getElem?⟩,
    fun x hx => ?_, fun x s => Bare.Interner.intern_known, fun x s t' hs => ?_,
    fun r t' hr hs x s => lookup_onInterner hr hs, fun x => ⟨rfl, rfl⟩, hshows.symbols_entries,
    fun s x => hshows.mem_entries, hshows.names, hshows.find?_eq⟩
  · simp only [← hshows.resolve_eq_some_iff, Bare.Interner.resolve, Bare.Interner.size]
    constructor
    · rintro ⟨x, hx⟩
      exact (Array.getElem?_eq_some_iff.mp hx).1
    · exact fun hlt => ⟨_, Array.getElem?_eq_getElem hlt⟩
  · exact Option.map_eq_some_iff.mp (hshows.lookup_of_mem hx)
  · rw [Bare.Interner.lookup_intern hs, if_pos rfl]

theorem mem_foldl_note {asked : List String} {requests : List Request} {x : String}
    (h : x ∈ requests.foldl note asked) : x ∈ asked ∨ intern x ∈ requests := by
  induction requests generalizing asked with
  | nil => exact .inl h
  | cons r requests ih =>
    rcases ih h with hx | hx
    · cases r <;> simp [note] at hx ⊢ <;> tauto
    · exact .inr (List.mem_cons_of_mem _ hx)

/-- Names that are not too many over all requests are never too many at a time. -/
theorem fit_of_few {reserved : List String} {requests : List Request}
    (h : (reserved ++ requests.filterMap name?).eraseDups.length ≤ UInt32.size) : Fit reserved requests := by
  intro front hfront
  refine (length_eraseDups_le fun x hx => ?_).trans h
  rcases mem_foldl_note hx with hx | hx
  · exact List.mem_append_left _ hx
  · exact List.mem_append_right _ (List.mem_filterMap.mpr ⟨_, hfront.subset hx, rfl⟩)

def forgetful : List Request :=
  [.intern "add", .lookup "ghost", .intern "add", .clear, .intern "b", .intern "a", .intern "b"]

theorem names_numbered_by_first_use_forgetful :
    ∃ t, (Bare.Interner.withReserved ["main", "main"]).bind (forgetful.foldlM onInterner ·) = some t ∧
      t.lookup "a" = some 1 ∧ t.contains "main" = false := by
  have hfit : Fit ["main", "main"] forgetful := fit_of_few (by decide +kernel)
  obtain ⟨t, ht, -, -, hcontains, hsymbol, -⟩ := names_numbered_by_first_use hfit
  obtain ⟨s, hs, hnat⟩ := hsymbol "a" (by decide +kernel)
  refine ⟨t, ht, ?_, ?_⟩
  · rw [hs, ← UInt32.toNat_inj.mp (hnat.trans (by decide +kernel : _ = (1 : UInt32).toNat))]
  · exact Bool.eq_false_iff.mpr fun h => absurd ((hcontains "main").1.mp h) (by decide +kernel)

end Lisplet
