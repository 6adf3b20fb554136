import Lisplet.Command
import Lisplet.Proofs.Fuel
import Lisplet.Proofs.Positions
import Lisplet.Proofs.SingleLine

/-!
# Logging and the command

A run does not see the log: whatever is logged, it goes the same way and tells the same
events, and all of these are details. So the command prints what running the source
prints, at every level of logging, and at the default level it reports nothing but its
own diagnostics. Fuel that is left over makes no difference either.
-/

namespace Lisplet

/-! ## Logs -/

theorem Log.addAll_append (log : Log) (es es' : List Event) :
    log.addAll (es ++ es') = (log.addAll es).addAll es' := List.foldl_append

theorem Log.add_detail {log : Log} {e : Event} (hlevel : log.level = .warn) (he : e.Detail) :
    log.add e = log := by
  unfold Log.add
  rw [hlevel]
  rcases he with he | he <;> simp [he, Level.shows, Level.rank]

theorem Log.addAll_details {log : Log} {es : List Event} (hlevel : log.level = .warn)
    (hes : ∀ e ∈ es, e.Detail) : log.addAll es = log := by
  induction es with
  | nil => rfl
  | cons e es ih =>
    rw [List.forall_mem_cons] at hes
    change (log.add e).addAll es = log
    rw [Log.add_detail hlevel hes.1]
    exact ih hes.2

/-! ## Runs do not see the log -/

structure Told (α : Type) where
  ending : Except Stop α
  heap : Heap
  stack : CallStack
  sink : Sink
  events : List Event

def Told.on (t : Told α) (log : Log) : EStateM.Result Stop Machine α :=
  match t.ending with
  | .ok a => .ok a ⟨t.heap, t.stack, t.sink, log.addAll t.events⟩
  | .error stop => .error stop ⟨t.heap, t.stack, t.sink, log.addAll t.events⟩

namespace Eval

/-- The computation does not see the log, and tells it nothing but details. -/
def Discreet (act : Eval α) : Prop :=
  ∀ heap stack sink, ∃ t : Told α, (∀ e ∈ t.events, e.Detail) ∧
    ∀ log, act ⟨heap, stack, sink, log⟩ = t.on log

section
variable {α β : Type}

theorem Discreet.of_silent {act : Eval α} (h : act.Silent) : act.Discreet := by
  obtain ⟨f, hevents, hf⟩ := h
  intro heap stack sink
  let effect := f heap stack
  exact ⟨⟨effect.ending, effect.heap, effect.stack, sink, effect.events⟩, hevents heap stack,
    fun log => hf ⟨heap, stack, sink, log⟩⟩

theorem Discreet.bind {x : Eval α} {f : α → Eval β} (hx : x.Discreet) (hf : ∀ a, (f a).Discreet) :
    (x >>= f).Discreet := by
  intro heap stack sink
  obtain ⟨⟨ending, heap₁, stack₁, sink₁, events⟩, hevents, ht⟩ := hx heap stack sink
  cases ending with
  | error stop =>
    refine ⟨⟨.error stop, heap₁, stack₁, sink₁, events⟩, hevents, ?_⟩
    intro log
    change EStateM.bind x f _ = _
    rw [EStateM.bind, ht log]
    rfl
  | ok a =>
    obtain ⟨t, htold, hrest⟩ := hf a heap₁ stack₁ sink₁
    refine ⟨{ t with events := events ++ t.events }, ?_, ?_⟩
    · exact List.forall_mem_append.mpr ⟨hevents, htold⟩
    · intro log
      change EStateM.bind x f _ = _
      rw [EStateM.bind, ht log]
      change f a ⟨heap₁, stack₁, sink₁, log.addAll events⟩ = _
      rw [hrest, Told.on, Told.on]
      dsimp only
      rw [Log.addAll_append]

/-- A change of the machine as a computation that cannot stop. -/
theorem Discreet.change {change : Machine → Machine} (h : (update change).Silent) (heap : Heap)
    (stack : CallStack) (sink : Sink) : ∃ heap' stack' events, (∀ e ∈ events, Event.Detail e) ∧
      ∀ log, change ⟨heap, stack, sink, log⟩ = ⟨heap', stack', sink, log.addAll events⟩ := by
  obtain ⟨f, hevents, hf⟩ := h
  refine ⟨(f heap stack).heap, (f heap stack).stack, (f heap stack).events, hevents heap stack, ?_⟩
  intro log
  have hchange := hf ⟨heap, stack, sink, log⟩
  unfold update Effect.on at hchange
  cases hend : (f heap stack).ending with
  | ok a =>
    dsimp only at hchange
    rw [hend] at hchange
    exact (EStateM.Result.ok.inj hchange).2
  | error stop =>
    dsimp only at hchange
    rw [hend] at hchange
    cases hchange

theorem Discreet.thenClose {act : Eval α} {close : Machine → Machine} (h : act.Discreet)
    (hc : (update close).Silent) : (act.thenClose close).Discreet := by
  intro heap stack sink
  obtain ⟨⟨ending, heap₁, stack₁, sink₁, events⟩, hevents, ht⟩ := h heap stack sink
  obtain ⟨heap₂, stack₂, closing, hclosing, hclose⟩ := Discreet.change hc heap₁ stack₁ sink₁
  refine ⟨⟨ending, heap₂, stack₂, sink₁, events ++ closing⟩,
    List.forall_mem_append.mpr ⟨hevents, hclosing⟩, ?_⟩
  intro log
  unfold Eval.thenClose
  rw [ht log]
  cases ending <;> simp only [Told.on, hclose, Log.addAll_append]

theorem Discreet.orUndo {act : Eval α} {undo : Machine → Machine} (h : act.Discreet)
    (hu : (update undo).Silent) : (act.orUndo undo).Discreet := by
  intro heap stack sink
  obtain ⟨⟨ending, heap₁, stack₁, sink₁, events⟩, hevents, ht⟩ := h heap stack sink
  cases ending with
  | ok a =>
    refine ⟨⟨.ok a, heap₁, stack₁, sink₁, events⟩, hevents, ?_⟩
    intro log
    rw [Eval.orUndo, ht log]
    rfl
  | error stop =>
    obtain ⟨heap₂, stack₂, undoing, hundoing, hundo⟩ := Discreet.change hu heap₁ stack₁ sink₁
    refine ⟨⟨.error stop, heap₂, stack₂, sink₁, events ++ undoing⟩,
      List.forall_mem_append.mpr ⟨hevents, hundoing⟩, ?_⟩
    intro log
    rw [Eval.orUndo, ht log]
    simp only [Told.on, hundo, Log.addAll_append]

theorem Discreet.print (fuel : Nat) (v : Option Value) (span : Span) :
    (Eval.print fuel v span).Discreet := by
  intro heap stack sink
  have hwrites := writes_print fuel v span ⟨heap, stack, sink, {}⟩
  obtain ⟨stop, after, hprint, -⟩ := hwrites ⟨heap, stack, sink, {}⟩ rfl rfl
  refine ⟨⟨stop.elim (.ok ()) .error, heap, stack, after, []⟩, by simp, ?_⟩
  intro log
  obtain ⟨stop', after', hagain, hlog⟩ := hwrites ⟨heap, stack, sink, log⟩ rfl rfl
  rw [hprint] at hagain
  rw [hlog]
  cases stop <;> cases stop' <;> cases hagain <;> rfl

end

end Eval

theorem discreet_congruence : Congruence fun x _ => x.Discreet where
  silent := .of_silent
  bind := .bind
  orUndo := .orUndo
  thenClose := .thenClose

theorem discreet_respected : RespectsRuns (fun _ => True) fun x _ => x.Discreet where
  toRespectsCalls := discreet_congruence.respectsCalls
  print fuel v span _ := .print fuel v span
  started := .of_silent (Eval.silent_update_note (fun _ => .mainStarted) fun _ => .inl rfl)
  finished h := h.thenClose (Eval.silent_update_note (fun s => .mainFinished s.size) fun _ => .inl rfl)

theorem run_discreet (c : Code) (fuel : Nat) : (c.run fuel).Discreet :=
  discreet_respected.run (fun _ n _ => .of_forall (fun _ => trivial) n) fuel fun _ _ => trivial

/-- Running a program goes the same way whatever is logged, and its events are details. -/
theorem execute_discreet (p : Program) (limit : Option Nat) (sink : Sink) (fuel : Nat) :
    ∃ outcome heap stack after events, (∀ e ∈ events, Event.Detail e) ∧
      ∀ log, p.execute limit sink log fuel = (outcome, ⟨heap, stack, after, log.addAll events⟩) := by
  obtain ⟨⟨ending, heap, stack, after, events⟩, hevents, ht⟩ :=
    run_discreet ⟨p.load.1, limit⟩ fuel p.load.2 {} sink
  unfold Program.execute Interpreter.start
  rcases ending with (e | _) | v
  · refine ⟨.failed (.run e), heap, stack, after, events, hevents, ?_⟩
    intro log
    dsimp only
    rw [ht log]
    rfl
  · refine ⟨.exhausted, heap, stack, after, events, hevents, ?_⟩
    intro log
    dsimp only
    rw [ht log]
    rfl
  · refine ⟨.finished, heap.release v, stack, after, events, hevents, ?_⟩
    intro log
    dsimp only
    rw [ht log]
    rfl

/-! ## What is told before a run -/

theorem narrateForms_details (depth : Nat) (ts : List Token) :
    ∀ e ∈ (narrateForms depth ts).1, e.Detail := by
  fun_induction narrateForms depth ts with
  | case2 depth t ts h events complete heq ih =>
    exact List.forall_mem_cons.mpr ⟨.inr rfl, ih⟩
  | _ => simp_all

theorem Scan.narrate_details (s : Scan) (bytes : Nat) : ∀ e ∈ s.narrate bytes, e.Detail := by
  have hforms := narrateForms_details 0 s.tokens
  have hcut : ∀ e ∈ s.cut.toList.map Event.cutSource, e.Detail := by
    simp [Event.Detail, Event.level]
  unfold Scan.narrate
  dsimp only
  split
  · refine List.forall_mem_append.mpr ⟨List.forall_mem_append.mpr ⟨hforms, hcut⟩, ?_⟩
    split <;> simp [Event.Detail, Event.level]
  · exact hforms

theorem narrateLeaf_detail {l : Leaf} {e : Event} (h : narrateLeaf l = some e) : e.Detail := by
  unfold narrateLeaf at h
  obtain ⟨b, -, rfl⟩ := Option.map_eq_some_iff.mp h
  exact .inr rfl

theorem narrateParams_details (functions locals : Names) (ns : List Node) :
    ∀ e ∈ (narrateParams functions locals ns).1, e.Detail := by
  induction ns generalizing locals with
  | nil => simp [narrateParams]
  | cons n ns ih =>
    rw [narrateParams]
    split
    · simp
    · refine List.forall_mem_append.mpr ⟨?_, ih _⟩
      simp [Event.Detail, Event.level]

theorem Declaration.narrate_details (functions : Names) (index : Nat) (d : Declaration) :
    ∀ e ∈ d.narrate functions index, e.Detail := by
  unfold Declaration.narrate
  dsimp only
  refine List.forall_mem_append.mpr ⟨List.forall_mem_append.mpr ⟨?_, narrateParams_details _ _ _⟩, ?_⟩
  · intro e he
    exact narrateLeaf_detail (Option.mem_toList.mp he)
  · split
    · simp
    · refine List.forall_mem_append.mpr ⟨?_, by simp [Event.Detail, Event.level]⟩
      intro e he
      obtain ⟨n, -, he⟩ := List.mem_flatMap.mp he
      obtain ⟨l, -, hl⟩ := List.mem_filterMap.mp he
      exact narrateLeaf_detail hl

theorem narrateFunctions_details (names : Names) (index : Nat) (ds : List Declaration) :
    ∀ e ∈ narrateFunctions names index ds, e.Detail := by
  induction ds generalizing index with
  | nil => simp [narrateFunctions]
  | cons d ds ih =>
    rw [narrateFunctions]
    refine List.forall_mem_append.mpr ⟨d.narrate_details names index, ?_⟩
    split
    · simp
    · exact ih (index + 1)

theorem narrateResolve_details (root : Node) : ∀ e ∈ narrateResolve root, e.Detail := by
  unfold narrateResolve
  split
  · simp
  · split
    · simp
    · exact narrateFunctions_details _ 0 _

/-! ## The command -/

def Outcome.status : Outcome → Nat
  | .finished => 0
  | _ => 1

def Outcome.diagnostic (outcome : Outcome) (colors : Bool) : String :=
  match outcome with
  | .failed failure => Diagnostic.line ⟨.error, failure.message, failure.span⟩ colors
  | _ => ""

def Reading.warning (r : Reading) (colors : Bool) : String :=
  match r.cut with
  | some cut => Diagnostic.line ⟨.warning, cut.message, cut.quote⟩ colors
  | none => ""

/-- What is reported of a source that is cut: nothing, if no tree can be read from it. -/
def warningOf (source : List Char) (colors : Bool) : String :=
  match readTree source with
  | .ok r => r.warning colors
  | .error _ => ""

section
variable (o : Options) (fuel : Nat) (colors : Bool)

theorem respondText_unread {source : List Char} {e : ReadError} (h : readTree source = .error e)
    (bytes : Nat) (log : Log) : o.respondText source bytes log fuel colors =
      respondFailure .empty ((log.addAll ((scan source).narrate bytes)).render colors) e.message e.span
        colors := by
  have hread : (scan source).read = .error e := h
  unfold Options.respondText
  dsimp only
  rw [hread]

theorem respondText_read {source : List Char} {r : Reading} (h : readTree source = .ok r) (bytes : Nat)
    (log : Log) : o.respondText source bytes log fuel colors =
      let report := (log.addAll ((scan source).narrate bytes)).render colors ++ r.warning colors
      let log : Log := ({ level := log.level } : Log).addAll (narrateResolve r.root)
      match resolve r.root with
      | .error f => respondFailure .empty (report ++ log.render colors) f.message f.span colors
      | .ok p =>
        o.respondProgram p report (log.add (.programResolved p.functions.length)) fuel colors := by
  have hread : (scan source).read = .ok r := h
  unfold Options.respondText
  dsimp only
  rw [hread]
  rfl

end

section
variable {o : Options} (ho : o.dumpTree = false) (fuel : Nat) (colors : Bool)
include ho

theorem respondProgram_agrees (p : Program) (report : String) (log : Log) :
    let response := o.respondProgram p report log fuel colors
    let run := p.execute o.maxDepth {} {} fuel
    response.output = run.2.sink.bytes ∧ response.exit = run.1.status ∧
      (log = {} → response.report = report ++ run.1.diagnostic colors) := by
  obtain ⟨outcome, heap, stack, after, events, hevents, hrun⟩ := execute_discreet p o.maxDepth {} fuel
  -- events of a run are details, so a log at the default level keeps none of them
  have hquiet : (({} : Log).addAll events).render colors = "" := by
    rw [Log.addAll_details rfl hevents]
    rfl
  unfold Options.respondProgram
  rw [if_neg (by simp [ho]), hrun, hrun]
  cases outcome with
  | finished => exact ⟨rfl, rfl, fun h => by simp [h, hquiet, Outcome.diagnostic]⟩
  | exhausted => exact ⟨rfl, rfl, fun h => by simp [h, hquiet, Outcome.diagnostic]⟩
  | failed failure =>
    exact ⟨rfl, rfl, fun h => by simp [h, hquiet, Outcome.diagnostic, respondFailure]⟩

theorem respondText_agrees (source : List Char) (bytes : Nat) (log : Log) :
    let response := o.respondText source bytes log fuel colors
    let run := runSource source o.maxDepth {} fuel
    response.output = run.2.bytes ∧ response.exit = run.1.status ∧
      (log = {} → response.report = warningOf source colors ++ run.1.diagnostic colors) := by
  have hquiet : log = {} → (log.addAll ((scan source).narrate bytes)).render colors = "" := by
    rintro rfl
    rw [Log.addAll_details rfl (Scan.narrate_details _ _)]
    rfl
  unfold runSource warningOf
  cases hread : readTree source with
  | error e =>
    rw [respondText_unread o fuel colors hread]
    refine ⟨rfl, rfl, ?_⟩
    intro h
    simp only [respondFailure, hquiet h]
    rfl
  | ok r =>
    rw [respondText_read o fuel colors hread]
    have hresolving : log = {} →
        ({ level := log.level } : Log).addAll (narrateResolve r.root) = {} := by
      rintro rfl
      exact Log.addAll_details rfl (narrateResolve_details r.root)
    dsimp only
    cases hp : resolve r.root with
    | error f =>
      refine ⟨rfl, rfl, ?_⟩
      intro h
      simp only [respondFailure, hquiet h, hresolving h, String.empty_append]
      rw [show ({} : Log).render colors = "" from rfl, String.append_empty]
      rfl
    | ok p =>
      obtain ⟨houtput, hexit, hreport⟩ := respondProgram_agrees ho fuel colors p
        ((log.addAll ((scan source).narrate bytes)).render colors ++ r.warning colors)
        ((({ level := log.level } : Log).addAll (narrateResolve r.root)).add
          (.programResolved p.functions.length))
      refine ⟨houtput, hexit, ?_⟩
      intro h
      rw [hreport (by rw [hresolving h]; rfl), hquiet h, String.empty_append]

end

/-! ## Fuel that is left over -/

section
variable {fuel fuel' : Nat} (hle : fuel ≤ fuel')
include hle

theorem execute_steady {p : Program} {limit : Option Nat} {sink : Sink} {log : Log}
    (h : (p.execute limit sink log fuel).1 ≠ .exhausted) :
    p.execute limit sink log fuel' = p.execute limit sink log fuel := by
  have hmore := Eval.steady_run (Interpreter.start p limit sink log).code hle
  unfold Program.execute at h ⊢
  dsimp only at h ⊢
  rw [hmore.eq_of_complete]
  split at h
  · rename_i hrun
    rw [hrun]
    trivial
  · rename_i hrun
    rw [hrun]
    trivial
  · exact absurd rfl h

theorem respondProgram_steady {o : Options} {p : Program}
    (h : (p.execute o.maxDepth {} {} fuel).1 ≠ .exhausted) (report : String) (log : Log) (colors : Bool) :
    o.respondProgram p report log fuel' colors = o.respondProgram p report log fuel colors := by
  obtain ⟨outcome, heap, stack, after, events, -, hrun⟩ := execute_discreet p o.maxDepth {} fuel
  have hends : (p.execute o.maxDepth {} log fuel).1 ≠ .exhausted := by
    rw [hrun] at h ⊢
    exact h
  unfold Options.respondProgram
  rw [execute_steady hle hends]

theorem respondText_steady {o : Options} {source : List Char}
    (h : (runSource source o.maxDepth {} fuel).1 ≠ .exhausted) (bytes : Nat) (log : Log) (colors : Bool) :
    o.respondText source bytes log fuel' colors = o.respondText source bytes log fuel colors := by
  unfold runSource at h
  cases hread : readTree source with
  | error e => rw [respondText_unread o fuel' colors hread, respondText_unread o fuel colors hread]
  | ok r =>
    rw [respondText_read o fuel' colors hread, respondText_read o fuel colors hread]
    rw [hread] at h
    cases hp : resolve r.root with
    | error f => rfl
    | ok p =>
      simp only [hp] at h
      exact respondProgram_steady hle h _ _ colors

/-- Once the run of a source ends, the response to it stays as it is, whatever fuel is added. -/
theorem respond_steady {o : Options} {source : Except AccessError ByteArray}
    (h : ∀ bytes cs, source = .ok bytes → decodeSource bytes = .ok cs →
      (runSource cs o.maxDepth {} fuel).1 ≠ .exhausted) (setting : Option String) (colors : Bool) :
    o.respond setting source fuel' colors = o.respond setting source fuel colors := by
  unfold Options.respond
  dsimp only
  split
  · rfl
  cases source with
  | error e => rfl
  | ok bytes =>
    cases hd : decodeSource bytes with
    | error e => simp only [hd]
    | ok cs =>
      simp only [hd]
      exact respondText_steady hle (h bytes cs rfl hd) bytes.size _ colors

end

/-! ## One line each -/

theorem Reading.warning_isLine {r : Reading} {cut : Cut} (h : r.cut = some cut) (colors : Bool) :
    IsLine (r.warning colors) := by
  unfold Reading.warning
  rw [h]
  apply Diagnostic.isLine
  obtain ⟨kind, quote⟩ := cut
  cases kind <;> simp [Cut.message, CutKind.describe, Unbroken]

theorem Outcome.diagnostic_isLine {source : List Char} {limit : Option Nat} {sink : Sink} {fuel : Nat}
    {failure : Failure} (h : (runSource source limit sink fuel).1 = .failed failure) (colors : Bool) :
    IsLine ((Outcome.failed failure).diagnostic colors) :=
  Diagnostic.isLine (runSource_unbroken h) failure.span colors

theorem warningOf_eq {source : List Char} (h : ¬ ∃ r, readTree source = .ok r ∧ r.cut.isSome)
    (colors : Bool) : warningOf source colors = "" := by
  unfold warningOf
  split
  · rename_i r hr
    cases hcut : r.cut with
    | some cut => exact absurd ⟨r, hr, by simp [hcut]⟩ h
    | none => simp [Reading.warning, hcut]
  · rfl

theorem Outcome.status_cases (outcome : Outcome) :
    (outcome.status = 0 ↔ outcome = .finished) ∧ (outcome.status = 0 ∨ outcome.status = 1) := by
  cases outcome <;> simp [Outcome.status]

/-! ## Bytes -/

theorem decodeSource_of_utf8 {bytes : ByteArray} {cs : List Char} (h : utf8 cs = bytes.data.toList) :
    decodeSource bytes = .ok cs := by
  rcases decodeSource_outcome bytes with ⟨ds, hds, hok⟩ | ⟨hnone, -⟩
  · rw [hok, utf8_injective (hds.trans h.symm)]
  · exact absurd h (hnone cs)

section
variable (o : Options) (ht : o.test = false) (setting : Option String) (fuel : Nat) (colors : Bool)
include ht

theorem respond_invalid {bytes : ByteArray} {e : ReadError} (h : decodeSource bytes = .error e) :
    o.respond setting (.ok bytes) fuel colors =
      respondFailure .empty ((o.log setting).render colors) e.message e.span colors := by
  simp only [Options.respond, ht, Bool.false_eq_true, if_false, h]

theorem respond_text {bytes : ByteArray} {source : List Char} (h : decodeSource bytes = .ok source) :
    o.respond setting (.ok bytes) fuel colors =
      o.respondText source bytes.size (o.log setting) fuel colors := by
  simp only [Options.respond, ht, Bool.false_eq_true, if_false, h]

theorem respond_agrees {bytes : ByteArray} {source : List Char} (h : decodeSource bytes = .ok source)
    (hd : o.dumpTree = false) :
    let response := o.respond setting (.ok bytes) fuel colors
    let run := runSource source o.maxDepth {} fuel
    response.output = run.2.bytes ∧ response.exit = run.1.status ∧
      (o.log setting = {} → response.report = warningOf source colors ++ run.1.diagnostic colors) := by
  rw [respond_text o ht setting fuel colors h]
  exact respondText_agrees hd fuel colors source bytes.size (o.log setting)

end

/-- The command prints what running the decoded source prints and exits with status 0 just if
this finishes, and otherwise with 1; bytes that are no text print nothing and exit with 1.
Neither what is logged nor colours make a difference to that, with any amount of fuel. With
nothing set, the report has a warning for a cut source that could be read and a diagnostic for
a failure, one line each, and nothing else. -/
theorem command_agrees (file : Option String) (maxDepth : Option Nat) (bytes : ByteArray) (fuel : Nat) :
    let response (level : Option Level) (setting : Option String) (colors : Bool) : Response :=
      Options.respond { file, logLevel := level, maxDepth } setting (.ok bytes) fuel colors
    (∀ level setting colors level' setting' colors',
      (response level setting colors).output = (response level' setting' colors').output ∧
      (response level setting colors).exit = (response level' setting' colors').exit) ∧
    ((∀ cs, utf8 cs ≠ bytes.data.toList) →
      (∀ level setting colors, (response level setting colors).output = .empty ∧
        (response level setting colors).exit = 1) ∧
      ∃ e, decodeSource bytes = .error e ∧ ∀ colors,
        (response none none colors).report = Diagnostic.line ⟨.error, e.message, e.span⟩ colors ∧
        IsLine (response none none colors).report) ∧
    ∀ cs, utf8 cs = bytes.data.toList →
      let run := runSource cs maxDepth {} fuel
      (∀ level setting colors, (response level setting colors).output = run.2.bytes ∧
        ((response level setting colors).exit = 0 ↔ run.1 = .finished) ∧
        ((response level setting colors).exit = 0 ∨ (response level setting colors).exit = 1)) ∧
      ∀ colors, (response none none colors).report = warningOf cs colors ++ run.1.diagnostic colors ∧
        (∀ r, readTree cs = .ok r → r.cut.isSome → IsLine (warningOf cs colors)) ∧
        (¬ (∃ r, readTree cs = .ok r ∧ r.cut.isSome) → warningOf cs colors = "") ∧
        (∀ failure, run.1 = .failed failure → IsLine (run.1.diagnostic colors)) ∧
        ((∀ failure, run.1 ≠ .failed failure) → run.1.diagnostic colors = "") := by
  intro response
  have hinvalid {e : ReadError} (he : decodeSource bytes = .error e) (level : Option Level)
      (setting : Option String) (colors : Bool) :=
    respond_invalid { file, logLevel := level, maxDepth } rfl setting fuel colors he
  have hagrees {cs : List Char} (hcs : decodeSource bytes = .ok cs) (level : Option Level)
      (setting : Option String) (colors : Bool) :=
    respond_agrees { file, logLevel := level, maxDepth } rfl setting fuel colors hcs rfl
  refine ⟨?_, ?_, ?_⟩
  · intro level setting colors level' setting' colors'
    cases hd : decodeSource bytes with
    | error e =>
      simp only [response, hinvalid hd]
      exact ⟨rfl, rfl⟩
    | ok cs =>
      -- both agree with one run, which knows of neither level nor colours
      obtain ⟨houtput, hexit, -⟩ := hagrees hd level setting colors
      obtain ⟨houtput', hexit', -⟩ := hagrees hd level' setting' colors'
      exact ⟨houtput.trans houtput'.symm, hexit.trans hexit'.symm⟩
  · intro hnone
    obtain ⟨cs, hcs, -⟩ | ⟨-, cs, -, he⟩ := decodeSource_outcome bytes
    · exact absurd hcs (hnone cs)
    · simp only [response, hinvalid he]
      refine ⟨fun _ _ _ => ⟨rfl, rfl⟩, _, he, fun colors => ⟨rfl, ?_⟩⟩
      exact Diagnostic.isLine (ReadError.unbroken_message _) _ colors
  · intro cs hcs run
    have hd := decodeSource_of_utf8 hcs
    refine ⟨?_, fun colors => ⟨(hagrees hd none none colors).2.2 rfl, ?_, (warningOf_eq · colors), ?_, ?_⟩⟩
    · intro level setting colors
      obtain ⟨houtput, hexit, -⟩ := hagrees hd level setting colors
      exact ⟨houtput, hexit ▸ run.1.status_cases⟩
    · intro r hr hcut
      obtain ⟨cut, hcut⟩ := Option.isSome_iff_exists.mp hcut
      unfold warningOf
      rw [hr]
      exact Reading.warning_isLine hcut colors
    · intro failure h
      rw [h]
      exact Outcome.diagnostic_isLine h colors
    · intro h
      cases hrun : run.1 with
      | failed failure => exact absurd hrun (h failure)
      | finished => rfl
      | exhausted => rfl

def cutBehind : List Char := "(defun (main) (print 1)) \"x".toList

theorem command_agrees_cutBehind :
    let response := Options.respond { maxDepth := some 1 } none (.ok (String.ofList cutBehind).toUTF8)
      100 true
    response.output = "1\n".toUTF8 ∧ response.exit = 0 ∧ IsLine response.report := by
  have hbytes : utf8 cutBehind = (String.ofList cutBehind).toUTF8.data.toList := by decide +kernel
  have hfinished : (runSource cutBehind (some 1) {} 100).1.status = 0 := by decide +kernel
  have hprinted : (runSource cutBehind (some 1) {} 100).2.bytes = "1\n".toUTF8 := by decide +kernel
  have hcut : (match readTree cutBehind with
      | .ok r => r.cut.isSome
      | .error _ => false) = true := by decide +kernel
  have hdone := (Outcome.status_cases _).1.mp hfinished
  obtain ⟨-, -, htext⟩ := command_agrees none (some 1) (String.ofList cutBehind).toUTF8 100
  obtain ⟨hagree, hreports⟩ := htext cutBehind hbytes
  obtain ⟨hreport, hline, -⟩ := hreports true
  refine ⟨(hagree none none true).1.trans hprinted, (hagree none none true).2.1.mpr hdone, ?_⟩
  rw [hdone] at hreport
  rw [hreport]
  split at hcut
  · rename_i r hr
    rw [show Outcome.finished.diagnostic true = "" from rfl, String.append_empty]
    exact hline r hr hcut
  · cases hcut

end Lisplet
