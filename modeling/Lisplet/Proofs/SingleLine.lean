import Lisplet.Proofs.Linking
import Lisplet.Proofs.Raising
import Lisplet.Proofs.Scanning
import Lisplet.Diagnostic
import Lisplet.Session

/-!
# Failures take one line

The report of a failure is one line, whatever names the program uses. What a message
quotes of a program are names, names are atoms, and a line feed ends an atom.
-/

namespace Lisplet

open Node

/-! ## Texts without line feeds -/

def Unbroken (text : String) : Prop := '\n' ∉ text.toList

@[simp] theorem unbroken_append {a b : String} : Unbroken (a ++ b) ↔ Unbroken a ∧ Unbroken b := by
  simp [Unbroken, not_or]

@[simp] theorem unbroken_repr (n : Nat) : Unbroken n.repr := by
  intro h
  have hdigit : '\n'.isDigit = true := by
    refine Nat.isDigit_of_mem_toDigits (b := 10) (n := n) (by decide) (by decide) ?_
    simpa [Nat.repr_eq_ofList_toDigits] using h
  exact absurd hdigit (by decide)

@[simp] theorem Keyword.unbroken_spelling (k : Keyword) : Unbroken k.spelling := by
  cases k <;> simp [Keyword.spelling, Unbroken]

@[simp] theorem Arity.unbroken_describe (a : Arity) : Unbroken a.describe := by
  unfold Arity.describe
  split <;> simp [Unbroken]

@[simp] theorem Span.unbroken_render (s : Span) : Unbroken s.render := by
  have hcolon : Unbroken ":" := by simp [Unbroken]
  simp [Span.render, Position.render, hcolon]

structure IsLine (text : String) : Prop where
  single : text.toList.count '\n' = 1
  last : text.toList.getLast? = some '\n'

theorem isLine_of_unbroken {text : String} (h : Unbroken text) : IsLine (text ++ "\n") := by
  constructor
  · rw [String.toList_append, List.count_append, List.count_eq_zero.mpr h]
    rfl
  · simp

theorem Diagnostic.isLine {severity : Severity} {message : String} (h : Unbroken message) (span : Span)
    (colors : Bool) : IsLine (Diagnostic.line ⟨severity, message, span⟩ colors) := by
  apply isLine_of_unbroken
  have hname : Unbroken (severity.render colors) := by
    cases severity <;> cases colors <;> simp [Severity.render, Severity.name, Severity.color, Unbroken]
  have hcolon : Unbroken ": " := by simp [Unbroken]
  have hat : Unbroken " at " := by simp [Unbroken]
  simp [Diagnostic.render, hname, hcolon, h, hat]

/-! ## Names -/

def Leaf.NameUnbroken (l : Leaf) : Prop := l.kind = .identifier → Unbroken l.text

theorem Lexeme.unbroken {t : Token} (h : Lexeme t.kind t.text.toList) (hk : t.kind ≠ .str) :
    Unbroken t.text := by
  intro hmem
  generalize t.kind = kind, t.text.toList = text at h hk hmem
  cases h with
  | opening => exact absurd hmem (by decide)
  | closing => exact absurd hmem (by decide)
  | str _ => exact hk rfl
  | atom _ hplain => exact absurd (hplain _ hmem) (by decide)

theorem nameUnbroken_ofToken {t : Token} (h : Lexeme t.kind t.text.toList) :
    (Leaf.ofToken t).NameUnbroken := by
  intro hkind
  apply h.unbroken
  intro hstr
  simp only [Leaf.ofToken, LeafKind.ofToken, hstr] at hkind
  cases hkind

theorem nameUnbroken_readTree {source : List Char} {r : Reading} (h : readTree source = .ok r) :
    r.root.All Leaf.NameUnbroken :=
  readTree_all_tokens h fun _ ht => nameUnbroken_ofToken (lexeme_of_mem_scan ht)

theorem Leaf.NameUnbroken.name {l : Leaf} (h : l.NameUnbroken) {x : String} (hx : l.name? = some x) :
    Unbroken x := by
  unfold Leaf.name? at hx
  split at hx
  · rename_i hkind
    cases hx
    exact h hkind
  · cases hx

/-! ## Messages -/

theorem ReadError.unbroken_message (e : ReadError) : Unbroken e.message := by
  cases e <;> simp [ReadError.message, Unbroken]

theorem Fault.RaisedAt.unbroken {n : Node} {f : Fault} (h : f.RaisedAt n) (hn : n.All Leaf.NameUnbroken) :
    Unbroken f.message := by
  unfold Fault.message
  cases h with
  | parameterShadowsFunction hx | duplicateParameter hx | duplicateFunction hx =>
    have hname := Leaf.NameUnbroken.name hn hx
    simp only [unbroken_append, hname]
    simp [Unbroken]
  | _ => simp [Unbroken]

theorem RuntimeError.OfCall.unbroken {c : Code} {index count : Nat} {span : Span} {e : RuntimeError}
    (hc : ∀ i f, c.program.function? i = some f → Unbroken f.name) (h : e.OfCall c index count span) :
    Unbroken e.message := by
  unfold RuntimeError.message
  cases h with
  | unknown | tooDeep =>
    simp only [unbroken_append, Nat.toString_eq_repr, unbroken_repr]
    simp [Unbroken]
  | miscounted hf =>
    simp only [unbroken_append, Nat.toString_eq_repr, unbroken_repr, hc _ _ hf]
    simp [Unbroken]

theorem RuntimeError.RaisedAt.unbroken {c : Code} {n : Node} {e : RuntimeError}
    (hc : ∀ i f, c.program.function? i = some f → Unbroken f.name) (h : e.RaisedAt c n)
    (hn : n.All Leaf.NameUnbroken) : Unbroken e.message := by
  cases h with
  | call h => exact h.unbroken hc
  | functionAsValue hkind | notAFunction hkind | unresolved hkind =>
    have hname := hn hkind
    unfold RuntimeError.message
    simp only [unbroken_append, hname]
    simp [Unbroken]
  | malformed | arity | notAnExpression | notAStatement | keywordInLeaf =>
    unfold RuntimeError.message
    simp only [unbroken_append, Keyword.unbroken_spelling, Arity.unbroken_describe,
      Nat.toString_eq_repr, unbroken_repr]
    simp [Unbroken]
  | _ =>
    unfold RuntimeError.message
    simp [Sink.refusal, Unbroken]

/-! ## Programs -/

structure Program.NamesUnbroken (p : Program) : Prop where
  root : p.root.All Leaf.NameUnbroken
  functions : ∀ i f, p.function? i = some f → Unbroken f.name

theorem Leaf.NameUnbroken.alike {l l' : Leaf} (h : l.NameUnbroken) (halike : l.Alike l') :
    l'.NameUnbroken := by
  intro hkind
  rw [halike.text_eq]
  exact h (halike.kind ▸ hkind)

theorem nameUnbroken_of_alike {n n' : Node} (h : Related Leaf.Alike n n') (hn : n.All Leaf.NameUnbroken) :
    n'.All Leaf.NameUnbroken :=
  h.all_of_all (fun _ _ halike hl => hl.alike halike) hn

theorem namesUnbroken_resolve {root : Node} {p : Program} (hroot : root.All Leaf.NameUnbroken)
    (hbound : root.All Leaf.OnlyNameBound) (hp : resolve root = .ok p) : p.NamesUnbroken := by
  obtain ⟨functions, hres⟩ := resolve_spec hp hbound
  refine ⟨nameUnbroken_of_alike hres.alike hroot, ?_⟩
  intro i f hf
  obtain ⟨locals, n, n', d, hn, -, hentry⟩ := hres.functions i f hf
  obtain ⟨⟨ptag, tag, rfl⟩, -, hname⟩ := ofNode?_inv hentry.definition
  have hform := allIn_iff.mp hroot.children _ (List.mem_of_getElem? hn)
  obtain ⟨-, ⟨hleaf, -⟩, -⟩ := hform
  rw [hentry.name]
  exact Leaf.NameUnbroken.name hleaf hname

theorem Program.NamesUnbroken.load {p : Program} (h : p.NamesUnbroken) : p.load.1.NamesUnbroken :=
  ⟨nameUnbroken_of_alike ((reloaded_loadNode {} p.root).mono fun _ _ h => h.alike) h.root, h.functions⟩

section
variable {c : Code} (hc : c.program.NamesUnbroken)
include hc

theorem unbroken_of_raisedIn {n : Node} {e : RuntimeError} (h : e.RaisedIn c n)
    (hn : n.All Leaf.NameUnbroken) : Unbroken e.message := by
  obtain ⟨n', hn', he⟩ := h
  exact he.unbroken hc.functions (hn'.all hn)

theorem unbroken_of_raisedInBody {e : RuntimeError} (h : e.RaisedInBody c) : Unbroken e.message := by
  obtain ⟨i, n, hn, he⟩ := h
  exact unbroken_of_raisedIn hc he (allIn_iff.mp (body_all hc.root i) n hn)

theorem run_unbroken (fuel : Nat) : (c.run fuel).Raises fun e => Unbroken e.message := by
  intro m e m' h
  rcases c.run_raises fuel m e m' h with hcall | hbody
  · exact hcall.unbroken hc.functions
  · exact unbroken_of_raisedInBody hc hbody

/-- What stops the evaluation of a node whose names are one line each. -/
theorem unbroken_of_raised {n : Node} (hn : n.All Leaf.NameUnbroken) {α : Type} {act : Eval α}
    (h : act.Raises fun e => e.RaisedIn c n ∨ e.RaisedInBody c) : act.Raises fun e => Unbroken e.message := by
  intro m e m' hm
  rcases h m e m' hm with hnode | hbody
  · exact unbroken_of_raisedIn hc hnode hn
  · exact unbroken_of_raisedInBody hc hbody

end

/-! ## One line -/

theorem runSource_unbroken {source : List Char} {limit : Option Nat} {sink : Sink} {fuel : Nat}
    {failure : Failure} (h : (runSource source limit sink fuel).1 = .failed failure) :
    Unbroken failure.message := by
  unfold runSource at h
  split at h
  · rename_i e he
    cases h
    exact e.unbroken_message
  · rename_i r hr
    have hroot := nameUnbroken_readTree hr
    split at h
    · rename_i f hf
      cases h
      obtain ⟨n, hn, hfault⟩ := Fault.resolve_raises hf
      exact hfault.unbroken (hn.all hroot)
    · rename_i p hp
      have hnames := namesUnbroken_resolve hroot (readTree_all (fun _ _ => rfl) hr) hp
      unfold Program.execute at h
      dsimp only at h
      split at h
      · cases h
      · rename_i e m hrun
        cases h
        exact run_unbroken (c := ⟨p.load.1, limit⟩) hnames.load fuel _ e m hrun
      · cases h

/-- Whatever fails, a source, a node of one that is evaluated or run in some program, or the
output, is reported on one line. -/
theorem failures_on_one_line (source : List Char) (limit : Option Nat) (fuel : Nat) (colors : Bool) :
    (∀ sink failure, (runSource source limit sink fuel).1 = .failed failure →
      IsLine (Diagnostic.line ⟨.error, failure.message, failure.span⟩ colors)) ∧
    (∀ (r : Reading) (n n' : Node), readTree source = .ok r → n.OccursIn r.root →
      Related Leaf.Alike n n' → ∀ (other : List Char) (r' : Reading) (p : Program),
        readTree other = .ok r' → resolve r'.root = .ok p → ∀ (m m' : Machine) (e : RuntimeError),
          let c : Code := ⟨p.load.1, limit⟩
          c.eval fuel n' m = .error (.error e) m' ∨ c.block fuel n' m = .error (.error e) m' ∨
            c.exec fuel n'.children n'.span m = .error (.error e) m' →
          IsLine (Diagnostic.line ⟨.error, e.message, e.span⟩ colors)) ∧
    ∀ reason span, '\n' ∉ reason.toList →
      IsLine (Diagnostic.line ⟨.error, (RuntimeError.output reason span).message, span⟩ colors) := by
  refine ⟨?_, ?_, ?_⟩
  · intro sink failure h
    exact Diagnostic.isLine (runSource_unbroken h) failure.span colors
  · intro r n n' hr hn halike other r' p hr' hp m m' e c h
    have hnode : n'.All Leaf.NameUnbroken := nameUnbroken_of_alike halike (hn.all (nameUnbroken_readTree hr))
    have hform : (Node.branch n'.children n'.span none).All Leaf.NameUnbroken := hnode.children
    have hnames : c.program.NamesUnbroken :=
      (namesUnbroken_resolve (nameUnbroken_readTree hr') (readTree_all (fun _ _ => rfl) hr') hp).load
    apply Diagnostic.isLine
    rcases h with h | h | h
    · exact unbroken_of_raised hnames hnode (c.eval_raises fuel n') m e m' h
    · exact unbroken_of_raised hnames hnode (c.block_raises fuel n') m e m' h
    · exact unbroken_of_raised hnames hform (c.exec_raises fuel n'.children n'.span) m e m' h
  · intro reason span hreason
    apply Diagnostic.isLine
    unfold RuntimeError.message
    rw [unbroken_append]
    exact ⟨by simp [Unbroken], hreason⟩

def brokenCall : List Char := "(defun (main) (\nname\n\"a\nb\"))".toList

theorem failures_on_one_line_brokenCall :
    ∃ failure, (runSource brokenCall none {} 5).1 = .failed failure ∧
      failure.message = "'name' is not a function" ∧
      IsLine (Diagnostic.line ⟨.error, failure.message, failure.span⟩ true) := by
  have hmessage : (match (runSource brokenCall none {} 5).1 with
      | .failed failure => failure.message
      | _ => "") = "'name' is not a function" := by decide +kernel
  cases hrun : (runSource brokenCall none {} 5).1 with
  | failed failure =>
    rw [hrun] at hmessage
    exact ⟨failure, rfl, hmessage, (failures_on_one_line brokenCall none 5 true).1 {} failure hrun⟩
  | finished => rw [hrun] at hmessage; exact absurd hmessage (by decide)
  | exhausted => rw [hrun] at hmessage; exact absurd hmessage (by decide)

end Lisplet
