import Lisplet.Proofs.Positions
import Lisplet.Proofs.Raising
import Lisplet.Session

/-!
# Where errors are reported

An error of resolution or of a run names the place of the node that it is raised at,
and an error of the reader that of a token. `Eval.Blames` says of a computation that
all its errors lie in given places, and the places of a tree are kept by resolving and
loading it.
-/

namespace Lisplet

/-! ## Places of a tree -/

namespace Node

mutual

def Placed (S : Span → Prop) : Node → Prop
  | leaf l => S l.span
  | branch cs span _ => S span ∧ PlacedIn S cs

def PlacedIn (S : Span → Prop) : List Node → Prop
  | [] => True
  | n :: ns => n.Placed S ∧ PlacedIn S ns

end

variable {S : Span → Prop}

theorem placedIn_iff {ns : List Node} : PlacedIn S ns ↔ ∀ n ∈ ns, n.Placed S := by
  induction ns with
  | nil => simp [PlacedIn]
  | cons n ns ih => simp [PlacedIn, ih]

theorem Placed.span {n : Node} (h : n.Placed S) : S n.span := by
  cases n with
  | leaf _ => exact h
  | branch _ _ _ => exact h.1

theorem Placed.children {n : Node} (h : n.Placed S) : PlacedIn S n.children := by
  cases n with
  | leaf _ => trivial
  | branch _ _ _ => exact h.2

theorem Placed.occurs {n n' : Node} (h : n.Placed S) (hn : n'.OccursIn n) : S n'.span := by
  induction hn with
  | here => exact h.span
  | inside hc _ ih => exact ih (placedIn_iff.mp h.children _ hc)

mutual

theorem placed_of_occurs : ∀ {n : Node}, (∀ m : Node, m.OccursIn n → S m.span) → n.Placed S
  | leaf _, h => h _ .here
  | branch _ _ _, h => ⟨h _ .here, placedIn_of_occurs fun _ hc m hm => h m (.inside hc hm)⟩

theorem placedIn_of_occurs : ∀ {ns : List Node}, (∀ n ∈ ns, ∀ m : Node, m.OccursIn n → S m.span) →
    PlacedIn S ns
  | [], _ => trivial
  | n :: _, h => ⟨placed_of_occurs (h n List.mem_cons_self),
      placedIn_of_occurs fun m hm => h m (List.mem_cons_of_mem n hm)⟩

end

mutual

theorem Related.placed {r : Leaf → Leaf → Prop} (hr : ∀ l l', r l l' → l'.token = l.token) :
    ∀ {n n' : Node}, Related r n n' → n.Placed S → n'.Placed S
  | leaf l, leaf l', h, hn => by
    have hspan : l'.span = l.span := congrArg Token.span (hr l l' h)
    show S l'.span
    rw [hspan]
    exact hn
  | branch _ _ _, branch _ _ _, h, hn => ⟨h.1 ▸ hn.1, RelatedAll.placed hr h.2 hn.2⟩
  | leaf _, branch _ _ _, h, _ => h.elim
  | branch _ _ _, leaf _, h, _ => h.elim

theorem RelatedAll.placed {r : Leaf → Leaf → Prop} (hr : ∀ l l', r l l' → l'.token = l.token) :
    ∀ {ns ns' : List Node}, RelatedAll r ns ns' → PlacedIn S ns → PlacedIn S ns'
  | [], [], _, _ => trivial
  | _ :: _, _ :: _, h, hn => ⟨Related.placed hr h.1 hn.1, RelatedAll.placed hr h.2 hn.2⟩
  | [], _ :: _, h, _ => h.elim
  | _ :: _, [], h, _ => h.elim

end

theorem placedIn_body {p : Program} (h : p.root.Placed S) (i : Nat) : PlacedIn S (p.body i) := by
  unfold Program.body
  split
  · trivial
  · split
    · rename_i form hform
      have hchild := placedIn_iff.mp h.children form (List.mem_of_getElem? hform)
      exact placedIn_iff.mpr fun n hn => placedIn_iff.mp hchild.children n (List.mem_of_mem_drop hn)
    · trivial

end Node

open Node

variable {S : Span → Prop}

/-! ## Faults of definitions -/

structure Definition.Placed (S : Span → Prop) (d : Definition) : Prop where
  name : S d.name.span
  params : PlacedIn S d.params

theorem placed_of_ofNode? {n : Node} {d : Definition} (hn : n.Placed S)
    (h : Definition.ofNode? n = some (.ok d)) : d.Placed S := by
  obtain ⟨⟨ptag, tag, rfl⟩, -, -⟩ := ofNode?_inv h
  obtain ⟨-, -, ⟨-, hname, hparams⟩, -⟩ := hn
  exact ⟨hname, hparams⟩

/-- Resolution finds fault with a node of the tree, if with anything. -/
theorem resolve_blames {root : Node} {f : Fault} (hroot : root.Placed S) (h : resolve root = .error f) :
    S f.span := by
  obtain ⟨n, hn, hf⟩ := Fault.resolve_raises h
  rw [hf.span_eq]
  exact hroot.occurs hn

/-! ## Computations with errors in given places -/

def Eval.Blames (S : Span → Prop) (act : Eval α) : Prop :=
  ∀ m e m', act m = .error (.error e) m' → S e.span

theorem run_blames {c : Code} (hc : c.program.root.Placed S) {f : Function}
    (hmain : c.program.function? 0 = some f) (hf : S f.span) (fuel : Nat) : (c.run fuel).Blames S := by
  intro m e m' hm
  rcases c.run_raises fuel m e m' hm with h | ⟨i, n, hn, n', hn', he⟩
  · have hspan : e.span = f.span := by rw [h.span_eq, Code.mainSpan, hmain]
    rw [hspan]
    exact hf
  · rw [he.span_eq]
    exact (placedIn_iff.mp (placedIn_body hc i) n hn).occurs hn'

/-- A program read from a tree blames the nodes of that tree only. -/
theorem execute_blames {root : Node} {p : Program} (hroot : root.Placed S)
    (hbound : root.All Leaf.OnlyNameBound) (hp : resolve root = .ok p) (limit : Option Nat) (sink : Sink)
    (log : Log) (fuel : Nat) {failure : Failure}
    (h : (p.execute limit sink log fuel).1 = .failed failure) : S failure.span := by
  obtain ⟨functions, hres⟩ := resolve_spec hp hbound
  have hplaced : p.root.Placed S := hres.alike.placed (fun _ _ h => h.token) hroot
  have hloaded : p.load.1.root.Placed S :=
    (reloaded_loadNode {} p.root).placed (fun _ _ h => h.token) hplaced
  -- a run as a whole is blamed on the name of the main function
  obtain ⟨f, hf, -⟩ := (hres.table mainName 0).mp hres.main
  obtain ⟨locals, n, n', d, hn, -, hentry⟩ := hres.functions 0 f hf
  have hname : S f.span := by
    rw [hentry.span]
    exact (placed_of_ofNode? (placedIn_iff.mp hroot.children n (List.mem_of_getElem? hn)) hentry.definition).name
  have hblames : (Code.run ⟨p.load.1, limit⟩ fuel).Blames S := run_blames hloaded hf hname fuel
  unfold Program.execute at h
  dsimp only at h
  split at h
  · cases h
  · rename_i e m hrun
    cases h
    exact hblames _ e m hrun
  · cases h

/-! ## All positions -/

def Reported (source : List Char) (s : Span) : Prop :=
  (∃ t ∈ (scan source).tokens, s = t.span) ∨
    ∃ (r : Reading) (n : Node), readTree source = .ok r ∧ n.OccursIn r.root ∧ s = n.span

theorem readTree_blames {source : List Char} {e : ReadError} (h : readTree source = .error e) :
    Reported source e.span := by
  rcases readTree_outcome source with ⟨ns, hr, -⟩ | ⟨t, hr, pre, post, hts, -⟩ |
    ⟨t, hr, -, pre, post, hts, -⟩ <;> rw [hr] at h <;> cases h
  · exact .inl ⟨t, by rw [hts]; simp, rfl⟩
  · exact .inl ⟨t, by rw [hts]; simp, rfl⟩

theorem runSource_blames {source : List Char} {limit : Option Nat} {sink : Sink} {fuel : Nat}
    {failure : Failure} (h : (runSource source limit sink fuel).1 = .failed failure) :
    Reported source failure.span := by
  unfold runSource at h
  split at h
  · rename_i e he
    cases h
    exact readTree_blames he
  · rename_i r hr
    have hroot : r.root.Placed (Reported source) :=
      placed_of_occurs fun n hn => .inr ⟨r, n, hr, hn, rfl⟩
    split at h
    · rename_i f hf
      cases h
      exact resolve_blames hroot hf
    · rename_i p hp
      exact execute_blames hroot (readTree_all (fun _ _ => rfl) hr) hp limit sink {} fuel h

/-- Tokens and nodes stand where they say, with the right lines and columns, and the spans
of tokens cover their texts. Whatever goes wrong with a source is reported at a token or a
node of it. Bytes that are no text are reported behind the longest text that they start with,
at the position that scanning this text ends at. -/
theorem positions_right (source : List Char) :
    (∀ t, t ∈ (scan source).tokens ∨ t = (scan source).finish →
      t.span.Right source ∧ t.span.slice source = some t.text.toList) ∧
    (∀ c, (scan source).cut = some c → c.quote.Right source ∧ c.quote.slice source = some ['"']) ∧
    (∀ (r : Reading) (n : Node), readTree source = .ok r → n.OccursIn r.root →
      n.span.Right source ∧ n.Nested) ∧
    (∀ limit sink fuel failure, (runSource source limit sink fuel).1 = .failed failure →
      Reported source failure.span) ∧
    ∀ bytes, (∃ cs, utf8 cs = bytes.data.toList ∧ decodeSource bytes = .ok cs) ∨
      ((∀ cs, utf8 cs ≠ bytes.data.toList) ∧ ∃ cs, LongestText bytes cs ∧
        decodeSource bytes = .error (.invalidUtf8 (.point (.behind cs))) ∧
        (scan cs).finish.span = .point (.behind cs)) := by
  refine ⟨?_, ?_, ?_, ?_, ?_⟩
  · intro t ht
    exact ⟨(covers_of_mem_scan ht).right, (covers_of_mem_scan ht).slice_eq⟩
  · intro c hc
    have hquote := (stands_scan source).quote c hc
    exact ⟨hquote.right, hquote.slice_eq⟩
  · intro r n hr hn
    exact nodes_right hr hn
  · intro limit sink fuel failure h
    exact runSource_blames h
  · intro bytes
    rcases decodeSource_outcome bytes with h | ⟨hinvalid, cs, hcs, he⟩
    · exact .inl h
    · exact .inr ⟨hinvalid, cs, hcs, he, by rw [(stands_scan cs).finish]; rfl⟩

def accentedLines : List Char := "(defun (main)\n (print é \"a\nb\")) \"x".toList

theorem positions_right_accentedLines :
    (∃ t ∈ (scan accentedLines).tokens, t.span.start.line = 2 ∧ t.span.stop.line = 3 ∧
      t.span.Right accentedLines) ∧
    (∃ c, (scan accentedLines).cut = some c ∧ c.quote.Right accentedLines) ∧
    (∃ r, readTree accentedLines = .ok r ∧ r.root.Nested) ∧
    (∃ failure, (runSource accentedLines none {} 5).1 = .failed failure ∧
      Reported accentedLines failure.span) ∧
    ∃ cs, LongestText ⟨#[0x0A, 0xC3]⟩ cs ∧
      decodeSource ⟨#[0x0A, 0xC3]⟩ = .error (.invalidUtf8 (scan cs).finish.span) := by
  obtain ⟨htokens, hcut, hnodes, hfailure, hbytes⟩ := positions_right accentedLines
  have htoken : ∃ t ∈ (scan accentedLines).tokens, t.span.start.line = 2 ∧ t.span.stop.line = 3 := by
    decide +kernel
  have hsome : (scan accentedLines).cut.isSome = true := by decide +kernel
  have hread : (readTree accentedLines).toOption.isSome = true := by decide +kernel
  refine ⟨?_, ?_, ?_, ?_, ?_⟩
  · obtain ⟨t, ht, hstart, hstop⟩ := htoken
    exact ⟨t, ht, hstart, hstop, (htokens t (.inl ht)).1⟩
  · obtain ⟨c, hc⟩ := Option.isSome_iff_exists.mp hsome
    exact ⟨c, hc, (hcut c hc).1⟩
  · cases hr : readTree accentedLines with
    | error e => rw [hr] at hread; cases hread
    | ok r => exact ⟨r, rfl, (hnodes r _ hr .here).2⟩
  · have hfailed : (match (runSource accentedLines none {} 5).1 with
        | .failed _ => true
        | _ => false) = true := by decide +kernel
    cases hr : (runSource accentedLines none {} 5).1 with
    | failed failure => exact ⟨failure, rfl, hfailure none {} 5 failure hr⟩
    | finished => rw [hr] at hfailed; cases hfailed
    | exhausted => rw [hr] at hfailed; cases hfailed
  · have hinvalid : (decodeSource ⟨#[0x0A, 0xC3]⟩).toOption.isSome = false := by decide +kernel
    rcases hbytes ⟨#[0x0A, 0xC3]⟩ with ⟨cs, -, hok⟩ | ⟨-, cs, hcs, he, hfinish⟩
    · rw [hok] at hinvalid
      cases hinvalid
    · exact ⟨cs, hcs, by rw [he, hfinish]⟩

end Lisplet
