import Lisplet.Proofs.Raising

/-!
# The limit on nested calls

With a limit on the depth of calls a program never has more calls open than that.
Otherwise the limit goes unnoticed: a run that does not end for its sake goes as it
would with any higher limit or with none, and one that does comes without it to the
same point, about to call one function more. Whether a run comes to a point is told
by breakpoints, which stop it there.
-/

namespace Lisplet

/-! ## Breakpoints -/

/-- What a run is about to do: call the main function, evaluate a node, or run one. -/
inductive Site
  | main
  | expression (node : Node)
  | statement (node : Node)

namespace Site

def span (c : Code) : Site → Span
  | main => c.mainSpan
  | expression n | statement n => n.span

inductive Calls (p : Program) : Site → Prop
  | main {f : Function} : p.function? 0 = some f → Calls p main
  | expression {n : Node} {index : Nat} {args : List Node} {f : Function} : n.IsCall index args →
      p.function? index = some f → Calls p (expression n)
  | statement {n : Node} {index : Nat} {args : List Node} {f : Function} : n.IsCall index args →
      p.function? index = some f → Calls p (statement n)

end Site

abbrev Breakpoint := Site → Machine → Option RuntimeError

def Eval.unlessAt (stop : Machine → Option RuntimeError) (act : Eval α) : Eval α := fun m =>
  match stop m with
  | some e => .error (.error e) m
  | none => act m

namespace Code

mutual

def evalUntil (c : Code) (stop : Breakpoint) : Nat → Node → Eval (Option Value)
  | 0, _ => .exhausted
  | fuel + 1, n =>
    (c.evalNode ⟨c.evalUntil stop fuel, c.blockUntil stop fuel⟩ n).unlessAt (stop (.expression n))

def blockUntil (c : Code) (stop : Breakpoint) : Nat → Node → Eval Flow
  | 0, _ => .exhausted
  | fuel + 1, n =>
    (c.runBlock ⟨c.evalUntil stop fuel, c.blockUntil stop fuel⟩ fuel n).unlessAt (stop (.statement n))

end

def walkUntil (c : Code) (stop : Breakpoint) (fuel : Nat) : Walk :=
  ⟨c.evalUntil stop fuel, c.blockUntil stop fuel⟩

def runUntil (c : Code) (stop : Breakpoint) (fuel : Nat) : Eval (Option Value) := do
  Eval.note .mainStarted
  ((c.call (c.walkUntil stop fuel) 0 [] c.mainSpan).unlessAt (stop .main)).thenClose
    fun m => m.note (.mainFinished m.stack.size)

/-- The run comes to a site and a state that satisfy `P`: a breakpoint there makes a
difference. -/
def Reaches (c : Code) (fuel : Nat) (m : Machine) (P : Site → Machine → Prop) : Prop :=
  ∃ stop : Breakpoint, (∀ site m', stop site m' ≠ none → P site m') ∧ c.runUntil stop fuel m ≠ c.run fuel m

theorem walkUntil_succ (c : Code) (stop : Breakpoint) (fuel : Nat) :
    c.walkUntil stop (fuel + 1) =
      ⟨fun n => (c.evalNode (c.walkUntil stop fuel) n).unlessAt (stop (.expression n)),
        fun n => (c.runBlock (c.walkUntil stop fuel) fuel n).unlessAt (stop (.statement n))⟩ := by
  simp only [walkUntil, Walk.mk.injEq]
  exact ⟨funext fun _ => by rw [evalUntil], funext fun _ => by rw [blockUntil]⟩

theorem runUntil_never (c : Code) (fuel : Nat) : c.runUntil (fun _ _ => none) fuel = c.run fuel := by
  have hwalk : c.walkUntil (fun _ _ => none) fuel = c.walk fuel := by
    induction fuel with
    | zero => rfl
    | succ fuel ih => rw [walkUntil_succ, walk_succ, ih]; rfl
  rw [runUntil, hwalk]
  rfl

end Code

/-! ## Frames that are entered -/

def Log.EntersUpTo (limit : Nat) (log : Log) : Prop :=
  ∀ base locals depth, .frameEntered base locals depth ∈ log.events → depth ≤ limit

theorem Log.EntersUpTo.add {limit : Nat} {log : Log} {e : Event} (h : log.EntersUpTo limit)
    (he : ∀ base locals depth, e = .frameEntered base locals depth → depth ≤ limit) :
    (log.add e).EntersUpTo limit := by
  unfold Log.add
  split
  · intro base locals depth hmem
    rcases Array.mem_push.mp hmem with hmem | heq
    · exact h base locals depth hmem
    · exact he base locals depth heq.symm
  · exact h

structure Machine.Shallow (limit : Nat) (m : Machine) : Prop where
  depth : m.stack.depth ≤ limit
  log : m.log.EntersUpTo limit

/-- As many calls are open in `m'` as in `m`, and no frame beyond the limit was entered. -/
structure Machine.Keeps (limit : Nat) (m m' : Machine) : Prop where
  depth : m'.stack.depth = m.stack.depth
  log : m'.log.EntersUpTo limit

theorem Machine.Keeps.shallow {limit : Nat} {m m' : Machine} (h : m.Keeps limit m')
    (hm : m.Shallow limit) : m'.Shallow limit := ⟨h.depth ▸ hm.depth, h.log⟩

theorem Machine.Keeps.trans {limit : Nat} {m m' m'' : Machine} (h : m.Keeps limit m')
    (h' : m'.Keeps limit m'') : m.Keeps limit m'' := ⟨h'.depth.trans h.depth, h'.log⟩

/-! ## Limited and watched runs side by side -/

/-- How a limited computation and a watched one end that start in `m`: alike, or the
limited one at the limit and with an output that satisfies `Q`. -/
inductive Alongside (limit : Nat) (Q : Sink → Prop) (m : Machine) :
    (limited watched : EStateM.Result Stop Machine α) → Prop
  | ok (a : α) (m' : Machine) : m.Keeps limit m' → Alongside limit Q m (.ok a m') (.ok a m')
  | stopped (e : Stop) (m' : Machine) : m.Keeps limit m' →
      Alongside limit Q m (.error e m') (.error e m')
  | full (span : Span) (m' : Machine) (watched : EStateM.Result Stop Machine α) : m.Keeps limit m' →
      Q m'.sink → Alongside limit Q m (.error (.error (.callDepthExceeded limit span)) m') watched

def Follows (limit : Nat) (Q : Sink → Prop) (x y : Eval α) : Prop :=
  ∀ m : Machine, m.Shallow limit → Alongside limit Q m (x m) (y m)

section
variable {α β : Type} {limit : Nat} {Q : Sink → Prop} {m : Machine}

theorem Alongside.bind {x y : Eval α} {f g : α → Eval β} {m₁ : Machine}
    (h : Alongside limit Q m (x m₁) (y m₁))
    (hf : ∀ a m', m.Keeps limit m' → Alongside limit Q m' (f a m') (g a m')) :
    Alongside limit Q m ((x >>= f) m₁) ((y >>= g) m₁) := by
  change Alongside limit Q m (EStateM.bind x f m₁) (EStateM.bind y g m₁)
  unfold EStateM.bind
  generalize x m₁ = limited, y m₁ = watched at h ⊢
  cases h with
  | stopped e m' hm' => exact .stopped e m' hm'
  | full span m' _ hm' hQ => exact .full span m' _ hm' hQ
  | ok a m' hm' =>
    have hrest := hf a m' hm'
    dsimp only
    generalize f a m' = limited, g a m' = watched at hrest ⊢
    cases hrest with
    | ok b m'' hm'' => exact .ok b m'' (hm'.trans hm'')
    | stopped e m'' hm'' => exact .stopped e m'' (hm'.trans hm'')
    | full span m'' _ hm'' hQ => exact .full span m'' _ (hm'.trans hm'') hQ

theorem Follows.bind {x y : Eval α} {f g : α → Eval β} (h : Follows limit Q x y)
    (hf : ∀ a, Follows limit Q (f a) (g a)) : Follows limit Q (x >>= f) (y >>= g) :=
  fun m hm => (h m hm).bind fun a m' hm' => hf a m' (hm'.shallow hm)

/-- A change of the machine on the way out that leaves the output alone. -/
theorem Alongside.orUndo {x y : Eval α} (undo : Machine → Machine)
    (h : Alongside limit Q m (x m) (y m)) (hu : ∀ m', m.Keeps limit m' → m.Keeps limit (undo m'))
    (hs : ∀ m', (undo m').sink = m'.sink) :
    Alongside limit Q m (x.orUndo undo m) (y.orUndo undo m) := by
  unfold Eval.orUndo
  generalize x m = limited, y m = watched at h ⊢
  cases h with
  | ok a m' hm' => exact .ok a m' hm'
  | stopped e m' hm' => exact .stopped e (undo m') (hu m' hm')
  | full span m' _ hm' hQ => exact .full span (undo m') _ (hu m' hm') (by rw [hs]; exact hQ)

theorem Alongside.thenClose {x y : Eval α} (close : Machine → Machine) {m₀ : Machine}
    (h : Alongside limit Q m (x m) (y m)) (hc : ∀ m', m.Keeps limit m' → m₀.Keeps limit (close m'))
    (hs : ∀ m', (close m').sink = m'.sink) :
    Alongside limit Q m₀ (x.thenClose close m) (y.thenClose close m) := by
  unfold Eval.thenClose
  generalize x m = limited, y m = watched at h ⊢
  cases h with
  | ok a m' hm' => exact .ok a (close m') (hc m' hm')
  | stopped e m' hm' => exact .stopped e (close m') (hc m' hm')
  | full span m' _ hm' hQ => exact .full span (close m') _ (hc m' hm') (by rw [hs]; exact hQ)

/-- Whatever keeps to the limit follows itself. -/
theorem Follows.of_keeps {x : Eval α} (h : ∀ m : Machine, m.Shallow limit → m.Keeps limit (x.after m)) :
    Follows limit Q x x := by
  intro m hm
  have hafter := h m hm
  unfold Eval.after at hafter
  cases hx : x m with
  | ok a m' => rw [hx] at hafter; exact .ok a m' hafter
  | error e m' => rw [hx] at hafter; exact .stopped e m' hafter

end

theorem Eval.Step.keeps {E : RuntimeError → Prop} {α : Type} {act : Eval α} (h : act.Step E)
    (m : Machine) : (act.after m).stack.depth = m.stack.depth ∧ (act.after m).log = m.log := by
  cases h with
  | setSlot k v =>
    refine ⟨?_, rfl⟩
    simp only [Eval.after, Eval.setSlot, Machine.setSlot, CallStack.set]
    split <;> rfl
  | operation k vs =>
    obtain ⟨heap, stack, sink, log⟩ := m
    unfold Eval.after Lisplet.operation
    dsimp only
    cases applyOperation k vs heap with
    | mk result heap => cases result <;> exact ⟨rfl, rfl⟩
  | _ => exact ⟨rfl, rfl⟩

theorem follows_respected (limit : Nat) (Q : Sink → Prop) :
    Respects (fun _ => True) (Follows limit Q) where
  step h := .of_keeps fun m hm => ⟨(h.keeps m).1, by rw [(h.keeps m).2]; exact hm.log⟩
  bind := Follows.bind
  orUndo _ h m hm := (h m hm).orUndo _ (fun _ h => ⟨h.depth, h.log⟩) fun _ => rfl
  thenClose _ h m hm := (h m hm).thenClose _ (fun _ h => ⟨h.depth, h.log⟩) fun _ => rfl

theorem follows_print {limit : Nat} {Q : Sink → Prop} (fuel : Nat) (v : Option Value) (span : Span) :
    Follows limit Q (Eval.print fuel v span) (Eval.print fuel v span) := by
  apply Follows.of_keeps
  intro m hm
  obtain ⟨stop, sink, hp, -⟩ := Eval.writes_print fuel v span m m rfl rfl
  rw [Eval.after, hp]
  cases stop <;> exact ⟨rfl, hm.log⟩

/-! ## Calls -/

/-- The limited code `c`, and how `c'` is watched beside it: not before `limit` calls are
open, and then each attempt to call is stopped with the error of the limit, or goes on
because `c'` has the same limit or the output satisfies `Q`. -/
structure Watched (c c' : Code) (limit : Nat) (Q : Sink → Prop) (stop : Breakpoint) : Prop where
  limited : c.limit = some limit
  program : c'.program = c.program
  free : ∀ depth < limit, c'.isFull depth = false
  before : ∀ site m, m.stack.depth ≤ limit → ¬ (site.Calls c.program ∧ m.stack.depth = limit) →
    stop site m = none
  attempt : ∀ site m, site.Calls c.program → m.stack.depth = limit →
    stop site m = some (.callDepthExceeded limit (site.span c)) ∨
      stop site m = none ∧ (c'.limit = some limit ∨ Q m.sink)

theorem Eval.unlessAt_none {α : Type} {stop : Machine → Option RuntimeError} {act : Eval α} {m : Machine}
    (h : stop m = none) : act.unlessAt stop m = act m := by
  simp [Eval.unlessAt, h]

theorem Eval.unlessAt_some {α : Type} {stop : Machine → Option RuntimeError} {act : Eval α} {m : Machine}
    {e : RuntimeError} (h : stop m = some e) : act.unlessAt stop m = .error (.error e) m := by
  simp [Eval.unlessAt, h]

theorem Eval.unlessAt_bind {α β : Type} (stop : Machine → Option RuntimeError) (x : Eval α)
    (f : α → Eval β) : (x >>= f).unlessAt stop = x.unlessAt stop >>= f := by
  funext m
  simp only [Eval.unlessAt, bind, EStateM.bind]
  cases stop m <;> rfl

theorem Code.call_within (c : Code) (w : Walk) {index : Nat} {f : Function} {args : List Node}
    (span : Span) {m : Machine} (hf : c.program.function? index = some f)
    (hopen : ¬ c.isFull m.stack.depth = true) (hcount : args.length = f.arity) :
    c.call w index args span m = c.enterAndRun w f index args m.stack.size m := by
  rw [c.call_eq, hf]
  simp only [Eval.inspectStack, bind, EStateM.bind]
  rw [if_neg hopen, if_neg (by simp [hcount])]

section
variable {c c' : Code} {limit : Nat} {Q : Sink → Prop} {stop : Breakpoint}
  (hc : Watched c c' limit Q stop) {w w' : Walk}
  (hw : Walk.PairsAt (c.Permits fun _ => True) (Follows limit Q) w w')

theorem follows_push (v : Option Value) : Follows limit Q (Eval.push v) (Eval.push v) :=
  .of_keeps fun _ hm => ⟨rfl, hm.log⟩

/-- Entering a frame opens one call, and leaving it closes that call. -/
theorem keeps_of_frame (f : Function) (count : Nat) {m : Machine} (hm : m.Shallow limit)
    (hlt : m.stack.depth < limit) :
    (Code.frameOf f count m).2.Shallow limit ∧ ∀ m', (Code.frameOf f count m).2.Keeps limit m' →
      m.Keeps limit (m'.leave (Code.frameOf f count m).1) := by
  have hdepth : (Code.frameOf f count m).2.stack.depth = m.stack.depth + 1 := rfl
  refine ⟨⟨by omega, ?_⟩, ?_⟩
  · refine (hm.log.add (by simp)).add ?_
    intro base locals depth h
    cases h
    exact hlt
  · intro m' h
    refine ⟨?_, h.log.add (by simp)⟩
    change m'.stack.depth - 1 = m.stack.depth
    rw [h.depth, hdepth]
    rfl

include hw

theorem follows_sequence (ns : List Node) : Follows limit Q (w.sequence ns) (w'.sequence ns) :=
  (follows_respected limit Q).sequence hw fun n _ => .of_forall (fun _ => trivial) n

include hc

/-- A call that may start: its frame is entered with no more than `limit` calls open. -/
theorem Watched.call {index : Nat} {f : Function} {args : List Node} {span : Span} {m : Machine}
    (hf : c.program.function? index = some f) (hm : m.Shallow limit) (hlt : m.stack.depth < limit) :
    Alongside limit Q m (c.call w index args span m) (c'.call w' index args span m) := by
  have hf' : c'.program.function? index = some f := by rw [hc.program]; exact hf
  have hopen : ¬ c.isFull m.stack.depth = true := by simp [Code.isFull, hc.limited, hlt]
  have hopen' : ¬ c'.isFull m.stack.depth = true := by rw [hc.free _ hlt]; simp
  by_cases hcount : args.length = f.arity
  · rw [c.call_within w span hf hopen hcount, c'.call_within w' span hf' hopen' hcount]
    unfold Code.enterAndRun
    have hpushed : Follows limit Q (w.pushAll args) (w'.pushAll args) :=
      (follows_respected limit Q).pushAll hw follows_push fun n _ => .of_forall (fun _ => trivial) n
    refine ((hpushed m hm).orUndo (Machine.truncate m.stack.size) (fun _ h => ⟨h.depth, h.log⟩)
      fun _ => rfl).bind ?_
    intro _ m₁ hm₁
    obtain ⟨hentered, hleft⟩ := keeps_of_frame f args.length (hm₁.shallow hm)
      (by rw [hm₁.depth]; exact hlt)
    have hbody := follows_sequence hw (c.program.body index) _ hentered
    rw [hc.program]
    refine (hbody.thenClose (Machine.leave _) hleft fun _ => rfl).bind ?_
    intro flow m₂ hm₂
    cases flow <;> exact .ok _ m₂ ⟨rfl, hm₂.log⟩
  · rw [c.call_miscounted w span hf hopen hcount, c'.call_miscounted w' span hf' hopen' hcount]
    exact .stopped _ m ⟨rfl, hm.log⟩

/-- An attempt to call, at a site that may be watched. -/
theorem Watched.attempted {site : Site} {index : Nat} {f : Function} {args : List Node} {m : Machine}
    (hsite : site.Calls c.program) (hf : c.program.function? index = some f) (hm : m.Shallow limit) :
    Alongside limit Q m (c.call w index args (site.span c) m)
      ((c'.call w' index args (site.span c)).unlessAt (stop site) m) := by
  have hf' : c'.program.function? index = some f := by rw [hc.program]; exact hf
  by_cases hfull : m.stack.depth = limit
  · have hlimit : c.call w index args (site.span c) m =
        .error (.error (.callDepthExceeded limit (site.span c))) m := by
      rw [c.call_full w args _ hf (by simp [Code.isFull, hc.limited, hfull]), hc.limited]
      rfl
    rw [hlimit]
    rcases hc.attempt site m hsite hfull with hstop | ⟨hgo, hsame | hQ⟩
    · rw [Eval.unlessAt_some hstop]
      exact .stopped _ m ⟨rfl, hm.log⟩
    · rw [Eval.unlessAt_none hgo, c'.call_full w' args _ hf' (by simp [Code.isFull, hsame, hfull]), hsame]
      exact .stopped _ m ⟨rfl, hm.log⟩
    · exact .full _ m _ ⟨rfl, hm.log⟩ hQ
  · rw [Eval.unlessAt_none (hc.before site m hm.depth fun h => hfull h.2)]
    exact hc.call hw hf hm (Nat.lt_of_le_of_ne hm.depth hfull)

omit hw in
/-- The same at a site that calls nothing, or a function that the program does not have. -/
theorem Watched.quiet {site : Site} {α : Type} {x y : Eval α} {m : Machine} (hm : m.Shallow limit)
    (hsite : ¬ site.Calls c.program) (h : Follows limit Q x y) :
    Alongside limit Q m (x m) (y.unlessAt (stop site) m) := by
  rw [Eval.unlessAt_none (hc.before site m hm.depth fun h => hsite h.1)]
  exact h m hm

omit hw in
theorem Watched.unknown {index : Nat} (args : List Node) (span : Span)
    (hf : c.program.function? index = none) :
    Follows limit Q (c.call w index args span) (c'.call w' index args span) := by
  rw [c.call_eq, c'.call_eq, hc.program, hf]
  exact (follows_respected limit Q).fail trivial

/-! ## Nodes -/

theorem Watched.evalNode (n : Node) :
    Follows limit Q (c.evalNode w n) ((c'.evalNode w' n).unlessAt (stop (.expression n))) := by
  intro m hm
  by_cases hcalls : (Site.expression n).Calls c.program
  · have hsite := hcalls
    cases hcalls with
    | expression hn hf =>
      cases hn with
      | mk span tag hkind hindex =>
        simp only [Code.evalNode, hkind, hindex]
        exact hc.attempted hw hsite hf hm
  · refine hc.quiet hm hcalls ?_
    refine (follows_respected limit Q).evalNode hw (.of_forall (fun _ => trivial) n) ?_
    intro index args hn
    cases hf : c.program.function? index with
    | none => exact hc.unknown args n.span hf
    | some f => exact absurd (.expression hn hf) hcalls

theorem Watched.runBlock (fuel : Nat) (n : Node) :
    Follows limit Q (c.runBlock w fuel n) ((c'.runBlock w' fuel n).unlessAt (stop (.statement n))) := by
  intro m hm
  by_cases hcalls : (Site.statement n).Calls c.program
  · have hsite := hcalls
    cases hcalls with
    | statement hn hf =>
      cases hn with
      | mk span tag hkind hindex =>
        simp only [Code.runBlock, Code.runForm, hkind, hindex]
        change Alongside limit Q m ((c.call w _ _ span >>= fun v => Eval.release v >>= fun _ =>
          pure Flow.normal) m) (((c'.call w' _ _ span >>= fun v => Eval.release v >>= fun _ =>
            pure Flow.normal).unlessAt _) m)
        rw [Eval.unlessAt_bind]
        exact (hc.attempted hw hsite hf hm).bind fun v m' hm' => .ok _ _ ⟨rfl, hm'.log⟩
  · refine hc.quiet hm hcalls ?_
    refine (follows_respected limit Q).runBlock hw fuel (.of_forall (fun _ => trivial) n) ?_
      fun _ v => follows_print fuel v n.span
    intro index args hn
    cases hf : c.program.function? index with
    | none => exact hc.unknown args n.span hf
    | some f => exact absurd (.statement hn hf) hcalls

end

section
variable {c c' : Code} {limit : Nat} {Q : Sink → Prop} {stop : Breakpoint}
  (hc : Watched c c' limit Q stop)
include hc

theorem Watched.walk (fuel : Nat) :
    Walk.PairsAt (c.Permits fun _ => True) (Follows limit Q) (c.walk fuel) (c'.walkUntil stop fuel) := by
  induction fuel with
  | zero =>
    have hR := follows_respected limit Q
    exact ⟨fun _ => hR.step .exhausted, fun _ => hR.step .exhausted⟩
  | succ fuel ih =>
    rw [Code.walk_succ, Code.walkUntil_succ]
    exact ⟨fun _ => hc.evalNode ih _, fun _ => hc.runBlock ih fuel _⟩

theorem Watched.run (fuel : Nat) : Follows limit Q (c.run fuel) (c'.runUntil stop fuel) := by
  have hspan : c'.mainSpan = c.mainSpan := by simp only [Code.mainSpan, hc.program]
  rw [Code.run_eq, Code.runUntil, hspan]
  refine .bind (.of_keeps fun m hm => ⟨rfl, hm.log.add (by simp)⟩) fun _ m hm => ?_
  refine .thenClose _ ?_ (fun m' h => ⟨h.depth, h.log.add (by simp)⟩) fun _ => rfl
  by_cases hmain : Site.main.Calls c.program
  · cases hmain with
    | main hf => exact hc.attempted (hc.walk fuel) (.main hf) hf hm
  · refine hc.quiet hm hmain (hc.unknown [] c.mainSpan ?_)
    cases hf : c.program.function? 0 with
    | none => rfl
    | some f => exact absurd (.main hf) hmain

end

/-! ## Limited runs -/

theorem Alongside.eq_or_full {α : Type} {limit : Nat} {Q : Sink → Prop} {m : Machine}
    {limited watched : EStateM.Result Stop Machine α} (h : Alongside limit Q m limited watched) :
    watched = limited ∨
      ∃ span m', limited = .error (.error (.callDepthExceeded limit span)) m' ∧ Q m'.sink := by
  cases h with
  | ok a m' _ => exact .inl rfl
  | stopped e m' _ => exact .inl rfl
  | full span m' _ _ hQ => exact .inr ⟨span, m', rfl, hQ⟩

theorem Follows.keeps {α : Type} {limit : Nat} {Q : Sink → Prop} {x y : Eval α} {m : Machine}
    (h : Follows limit Q x y) (hm : m.Shallow limit) : m.Keeps limit (x.after m) := by
  have hm' := h m hm
  unfold Eval.after
  generalize x m = limited, y m = watched at hm' ⊢
  cases hm' with
  | ok a m' h => exact h
  | stopped e m' h => exact h
  | full span m' _ h _ => exact h

theorem limit_of_exceeded {c : Code} {fuel n : Nat} {span : Span} {m m' : Machine}
    (h : c.run fuel m = .error (.error (.callDepthExceeded n span)) m') : c.limit = some n := by
  rcases c.run_raises fuel m _ m' h with hcall | ⟨i, node, hnode, n', hn', hraised⟩
  · cases hcall with
    | tooDeep hlimit => exact hlimit
  · cases hraised with
    | call hcall =>
      cases hcall with
      | tooDeep hlimit => exact hlimit

open Classical in
/-- Stops with the error of the limit at each attempt to call that finds `limit` calls
open and `sink` written. -/
noncomputable def Breakpoint.onAttempt (c : Code) (limit : Nat) (sink : Sink) : Breakpoint := fun site m =>
  if site.Calls c.program ∧ m.stack.depth = limit ∧ m.sink = sink then
    some (.callDepthExceeded limit (site.span c))
  else none

theorem Breakpoint.onAttempt_eq_some {c : Code} {limit : Nat} {sink : Sink} {site : Site} {m : Machine}
    (hcalls : site.Calls c.program) (hdepth : m.stack.depth = limit) (hsink : m.sink = sink) :
    onAttempt c limit sink site m = some (.callDepthExceeded limit (site.span c)) := by
  unfold onAttempt
  exact if_pos ⟨hcalls, hdepth, hsink⟩

theorem Breakpoint.onAttempt_eq_none {c : Code} {limit : Nat} {sink : Sink} {site : Site} {m : Machine}
    (h : ¬ (site.Calls c.program ∧ m.stack.depth = limit ∧ m.sink = sink)) :
    onAttempt c limit sink site m = none := by
  unfold onAttempt
  exact if_neg h

section
variable {c : Code} {limit : Nat} (hlimit : c.limit = some limit)
include hlimit

theorem watched_beyond {stop : Breakpoint} (hstop : ∀ site m, stop site m ≠ none → limit < m.stack.depth) :
    Watched c c limit (fun _ => False) stop := by
  have hgo (site : Site) (m : Machine) (h : m.stack.depth ≤ limit) : stop site m = none := by
    cases hs : stop site m with
    | none => rfl
    | some e => exact absurd (hstop site m (by simp [hs])) (Nat.not_lt.mpr h)
  refine ⟨hlimit, rfl, ?_, fun site m h _ => hgo site m h, ?_⟩
  · intro depth h
    simp [Code.isFull, hlimit, h]
  · intro site m _ h
    exact .inr ⟨hgo site m (Nat.le_of_eq h), .inl hlimit⟩

/-- With a limit no more calls are ever open than it allows. -/
theorem depth_bounded (fuel : Nat) {m : Machine} (hm : m.Shallow limit) :
    ((c.run fuel).after m).log.EntersUpTo limit ∧
      ¬ c.Reaches fuel m fun _ m' => limit < m'.stack.depth := by
  constructor
  · have hnever : Watched c c limit (fun _ => False) fun _ _ => none := watched_beyond hlimit (by simp)
    exact ((hnever.run fuel).keeps hm).log
  · rintro ⟨stop, hstop, hne⟩
    rcases ((watched_beyond hlimit hstop).run fuel m hm).eq_or_full with heq | ⟨_, _, _, hfalse⟩
    · exact hne heq
    · exact hfalse

variable {c' : Code} (hprogram : c'.program = c.program) (hle : ∀ l, c'.limit = some l → limit ≤ l)
include hprogram hle

omit hlimit hprogram in
theorem free_below (depth : Nat) (h : depth < limit) : c'.isFull depth = false := by
  unfold Code.isFull
  split
  · rename_i l hl
    have := hle l hl
    exact decide_eq_false (by omega)
  · rfl

/-- A run that does not end for the sake of the limit goes the same way with a higher one. -/
theorem run_of_not_exceeded (fuel : Nat) {m : Machine} (hm : m.Shallow limit)
    (hend : ∀ span m', c.run fuel m ≠ .error (.error (.callDepthExceeded limit span)) m') :
    c'.run fuel m = c.run fuel m := by
  have hwatched : Watched c c' limit (fun _ => True) fun _ _ => none :=
    ⟨hlimit, hprogram, free_below hle, fun _ _ _ _ => rfl, fun _ _ _ _ => .inr ⟨rfl, .inr trivial⟩⟩
  rw [← c'.runUntil_never]
  rcases (hwatched.run fuel m hm).eq_or_full with heq | ⟨span, m', hfull, _⟩
  · exact heq
  · exact absurd hfull (hend span m')

/-- One that does comes, with a higher limit, to the attempt to call that was one too
many. -/
theorem reaches_of_exceeded (fuel : Nat) {m m' : Machine} {span : Span} (hm : m.Shallow limit)
    (hend : c.run fuel m = .error (.error (.callDepthExceeded limit span)) m')
    (hne : c'.limit ≠ some limit) :
    c'.Reaches fuel m fun site m₁ =>
      site.Calls c'.program ∧ m₁.stack.depth = limit ∧ m₁.sink = m'.sink := by
  -- watched for is an attempt to call with the output of the limited run
  have hwatched : Watched c c' limit (· ≠ m'.sink) (.onAttempt c limit m'.sink) := by
    refine ⟨hlimit, hprogram, free_below hle, ?_, ?_⟩
    · intro site m₁ _ hquiet
      exact Breakpoint.onAttempt_eq_none fun h => hquiet ⟨h.1, h.2.1⟩
    · intro site m₁ hcalls hdepth
      by_cases hsink : m₁.sink = m'.sink
      · exact .inl (Breakpoint.onAttempt_eq_some hcalls hdepth hsink)
      · exact .inr ⟨Breakpoint.onAttempt_eq_none fun h => hsink h.2.2, .inr hsink⟩
  refine ⟨.onAttempt c limit m'.sink, ?_, ?_⟩
  · intro site m₁ h
    rw [hprogram]
    exact Classical.byContradiction fun hquiet => h (Breakpoint.onAttempt_eq_none hquiet)
  · intro hsame
    rcases (hwatched.run fuel m hm).eq_or_full with heq | ⟨_, m₁, hfull, hsink⟩
    · rw [hsame, hend] at heq
      exact hne (limit_of_exceeded heq)
    · rw [hend] at hfull
      cases hfull
      exact hsink rfl

end

/-- Under the limit `L` no frame is entered and no state is reached with more calls open.
A run that ends otherwise than for the limit ends the same with any higher limit and
with none. One that ends for it comes without it, having printed the same, to an attempt
to call while `L` calls are open. -/
theorem limit_otherwise_invisible (p : Program) (L fuel : Nat) (sink : Sink) (level : Level) :
    let limited := Interpreter.start p (some L) sink { level := level }
    let result := limited.code.run fuel limited.machine
    ((limited.code.run fuel).after limited.machine).log.EntersUpTo L ∧
    ¬ limited.code.Reaches fuel limited.machine (fun _ m => L < m.stack.depth) ∧
    ∀ limit : Option Nat, (∀ L', limit = some L' → L ≤ L') →
      let free := Interpreter.start p limit sink { level := level }
      ((∀ n span m', result ≠ .error (.error (.callDepthExceeded n span)) m') →
        free.code.run fuel free.machine = result) ∧
      ∀ n span m', result = .error (.error (.callDepthExceeded n span)) m' → limit ≠ some L →
        free.code.Reaches fuel free.machine fun site m =>
          site.Calls free.code.program ∧ m.stack.depth = L ∧ m.sink = m'.sink := by
  intro limited result
  have hlimit : limited.code.limit = some L := rfl
  have hm : limited.machine.Shallow L := ⟨Nat.zero_le L, fun _ _ _ h => by cases h.val⟩
  have hdepth := depth_bounded hlimit fuel hm
  refine ⟨hdepth.1, hdepth.2, ?_⟩
  intro limit hle free
  have hprogram : free.code.program = limited.code.program := rfl
  constructor
  · intro hend
    exact run_of_not_exceeded hlimit hprogram hle fuel hm (hend L)
  · intro n span m' hend hne
    obtain rfl : L = n := Option.some.inj (limit_of_exceeded hend)
    exact reaches_of_exceeded hlimit hprogram hle fuel hm hend hne

def oneCallDeep : List Char := "(defun (main) (print 1) (f)) (defun (f) (print 2))".toList

def Program.printedAtLimit (p : Program) (limit fuel : Nat) : Option ByteArray :=
  let i := Interpreter.start p (some limit) {} {}
  match i.code.run fuel i.machine with
  | .error (.error (.callDepthExceeded _ _)) m => some m.sink.bytes
  | _ => none

theorem limit_otherwise_invisible_oneCallDeep :
    ∃ (r : Reading) (p : Program), readTree oneCallDeep = .ok r ∧ resolve r.root = .ok p ∧
      (let free := Interpreter.start p none {} {}
      let enough := Interpreter.start p (some 2) {} {}
      free.code.run 9 free.machine = enough.code.run 9 enough.machine ∧
      ∃ sink : Sink, sink.bytes = "1\n".toUTF8 ∧ free.code.Reaches 9 free.machine fun site m =>
        site.Calls free.code.program ∧ m.stack.depth = 1 ∧ m.sink = sink) := by
  have hends : ((readTree oneCallDeep).toOption.bind fun r => (resolve r.root).toOption.map fun p =>
      (p.printedAtLimit 1 9, p.printedAtLimit 2 9)) = some (some "1\n".toUTF8, none) := by
    decide +kernel
  cases hr : readTree oneCallDeep with
  | error e => rw [hr] at hends; cases hends
  | ok r =>
    cases hp : resolve r.root with
    | error f => simp [hr, hp, Except.toOption] at hends
    | ok p =>
      simp only [hr, hp, Except.toOption, Option.bind_some, Option.map_some, Option.some.injEq,
        Prod.mk.injEq] at hends
      obtain ⟨hcut, hwhole⟩ := hends
      refine ⟨r, p, rfl, hp, ?_, ?_⟩
      · refine ((limit_otherwise_invisible p 2 9 {} .warn).2.2 none (by simp)).1 ?_
        intro n span m' hend
        simp [Program.printedAtLimit, hend] at hwhole
      · unfold Program.printedAtLimit at hcut
        dsimp only at hcut
        split at hcut
        · rename_i n span m' hend
          refine ⟨m'.sink, Option.some.inj hcut, ?_⟩
          exact ((limit_otherwise_invisible p 1 9 {} .warn).2.2 none (by simp)).2 n span m' hend (by simp)
        · cases hcut

end Lisplet
