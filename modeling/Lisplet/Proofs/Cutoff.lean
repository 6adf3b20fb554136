import Lisplet.Proofs.Congruence

/-!
# Output that is cut off

A sink with room for `n` bytes takes the first `n` bytes that the program writes
to a sink without limit. The run goes the same way until the byte behind them
comes, and then stops at the `print` form that writes it. Three runs go side by
side here: the free one, the limited one, and a free one under supervision that
is stopped from outside behind that form.
-/

namespace Lisplet

/-! ## Supervised runs -/

namespace Code

mutual

def evalBeside (c : Code) (beside : Node → Eval Flow → Eval Flow) : Nat → Node → Eval (Option Value)
  | 0, _ => .exhausted
  | fuel + 1, n => c.evalNode ⟨c.evalBeside beside fuel, c.blockBeside beside fuel⟩ n

/-- Runs a node as a block. `beside` is handed every statement on the way, and
decides what becomes of it. -/
def blockBeside (c : Code) (beside : Node → Eval Flow → Eval Flow) : Nat → Node → Eval Flow
  | 0, _ => .exhausted
  | fuel + 1, n => beside n (c.runBlock ⟨c.evalBeside beside fuel, c.blockBeside beside fuel⟩ fuel n)

end

def walkBeside (c : Code) (beside : Node → Eval Flow → Eval Flow) (fuel : Nat) : Walk :=
  ⟨c.evalBeside beside fuel, c.blockBeside beside fuel⟩

def runBeside (c : Code) (beside : Node → Eval Flow → Eval Flow) (fuel : Nat) :
    Eval (Option Value) := fun m =>
  let span := match c.program.function? 0 with
    | some f => f.span
    | none => default
  ((c.call (c.walkBeside beside fuel) 0 [] span).thenClose
    fun m => m.note (.mainFinished m.stack.size)) (m.note .mainStarted)

theorem walkBeside_succ (c : Code) (beside : Node → Eval Flow → Eval Flow) (fuel : Nat) :
    c.walkBeside beside (fuel + 1) = ⟨c.evalNode (c.walkBeside beside fuel),
      fun n => beside n (c.runBlock (c.walkBeside beside fuel) fuel n)⟩ := by
  simp only [walkBeside, Walk.mk.injEq]
  exact ⟨funext fun _ => by rw [evalBeside], funext fun _ => by rw [blockBeside]⟩

/-- Supervision that lets every statement be is no supervision. -/
theorem runBeside_idle (c : Code) (fuel : Nat) : c.runBeside (fun _ act => act) fuel = c.run fuel := by
  have hwalk : c.walkBeside (fun _ act => act) fuel = c.walk fuel := by
    induction fuel with
    | zero => rfl
    | succ fuel ih => rw [walkBeside_succ, walk_succ, ih]
  funext m
  have hrun (span : Span) := congrArg (fun w : Walk => ((c.call w 0 [] span).thenClose
    fun m => m.note (.mainFinished m.stack.size)) (m.note .mainStarted)) hwalk
  exact hrun _

end Code

/-- Stops a run behind the `print` form during which the output grew beyond `n`
bytes, unless it has failed already. -/
def cutAt (n : Nat) (node : Node) (statement : Eval Flow) : Eval Flow := fun m =>
  match statement m with
  | .error (.error e) m' => .error (.error e) m'
  | result =>
    let m' := statement.after m
    if node.headKeyword? = some .print ∧ m.sink.bytes.size ≤ n ∧ n < m'.sink.bytes.size then
      .error (.error (.output Sink.refusal node.span)) m'
    else result

/-! ## Sinks -/

namespace Sink

/-- `t` has no limit, and begins with the bytes of `s`. -/
def Grows (s t : Sink) : Prop := t.room = none ∧ ∃ more, t.bytes = s.bytes ++ more

/-- What a sink for `n` bytes holds when one without limit holds `s`. -/
def upTo (n : Nat) (s : Sink) : Sink := ⟨s.bytes.extract 0 n, some (n - s.bytes.size)⟩

variable {s t u : Sink} {n : Nat}

theorem Grows.refl (h : s.room = none) : s.Grows s := ⟨h, .empty, by simp⟩

theorem Grows.trans (h : s.Grows t) (h' : t.Grows u) : s.Grows u := by
  obtain ⟨-, more, ht⟩ := h
  obtain ⟨hroom, more', hu⟩ := h'
  exact ⟨hroom, more ++ more', by rw [hu, ht, ByteArray.append_assoc]⟩

theorem Grows.size_le (h : s.Grows t) : s.bytes.size ≤ t.bytes.size := by
  obtain ⟨-, more, ht⟩ := h
  simp [ht]

theorem extract_append_of_le {a : ByteArray} (b : ByteArray) (h : n ≤ a.size) :
    (a ++ b).extract 0 n = a.extract 0 n := by
  rw [ByteArray.extract_append]
  simp [Nat.sub_eq_zero_of_le h]

/-- Once more than `n` bytes are out, what comes later does not matter. -/
theorem Grows.upTo_eq (h : s.Grows t) (hn : n < s.bytes.size) : t.upTo n = s.upTo n := by
  obtain ⟨-, more, ht⟩ := h
  unfold upTo
  rw [ht, extract_append_of_le more (Nat.le_of_lt hn), ByteArray.size_append]
  congr 2
  omega

theorem upTo_bytes (h : s.bytes.size ≤ n) : (s.upTo n).bytes = s.bytes := by
  have hall : s.bytes.extract 0 (max n s.bytes.size) = s.bytes := ByteArray.extract_zero_max_size
  rwa [Nat.max_eq_left h] at hall

theorem write_free (hroom : s.room = none) (text : ByteArray) :
    s.write text = (true, ⟨s.bytes ++ text, none⟩) := by
  unfold write
  rw [hroom]

/-- One write into a limited sink, complete exactly if its bytes still fit. -/
theorem write_upTo (h : s.bytes.size ≤ n) (text : ByteArray) :
    (s.upTo n).write text =
      (decide ((s.bytes ++ text).size ≤ n), (⟨s.bytes ++ text, none⟩ : Sink).upTo n) := by
  have hbytes := upTo_bytes h
  unfold upTo at hbytes
  unfold write upTo
  dsimp only at hbytes ⊢
  rw [hbytes, ByteArray.size_append]
  by_cases hfits : text.size ≤ n - s.bytes.size
  · have hall : (s.bytes ++ text).extract 0 n = s.bytes ++ text :=
      upTo_bytes (s := ⟨s.bytes ++ text, none⟩) (by simp only [ByteArray.size_append]; omega)
    rw [if_pos hfits, hall]
    congr 1
    · simp; omega
    · congr 2; omega
  · have hpart : (s.bytes ++ text).extract 0 n = s.bytes ++ text.extract 0 (n - s.bytes.size) := by
      rw [ByteArray.extract_append, hbytes]
      simp
    rw [if_neg hfits, hpart]
    congr 1
    · simp; omega
    · congr 2; omega

end Sink

def Machine.upTo (n : Nat) (m : Machine) : Machine := { m with sink := m.sink.upTo n }

/-! ## Printing -/

namespace Eval

/-- To a sink without limit `act` never fails, and it changes nothing else. To a
sink for `n` bytes it writes the same, and fails if that is too much. -/
def Prints (span : Span) (act : Eval Unit) : Prop :=
  ∀ m : Machine, m.sink.room = none → ∃ stop sink, act m = ended stop { m with sink := sink } ∧
    (∀ e, stop ≠ some (.error e)) ∧ m.sink.Grows sink ∧
    ∀ n, m.sink.bytes.size ≤ n → act (m.upTo n) =
      ended (if sink.bytes.size ≤ n then stop else some (.error (.output Sink.refusal span)))
        { m with sink := sink.upTo n }

theorem write_free {m : Machine} (hroom : m.sink.room = none) (text : String) (span : Span) :
    write text span m = .ok () { m with sink := ⟨m.sink.bytes ++ text.toUTF8, none⟩ } := by
  obtain ⟨heap, stack, sink, log⟩ := m
  dsimp only at hroom ⊢
  unfold write
  simp only [Sink.write_free hroom, if_true]

theorem write_upTo {m : Machine} {n : Nat} (hsize : m.sink.bytes.size ≤ n) (text : String)
    (span : Span) : write text span (m.upTo n) =
      ended (if (m.sink.bytes ++ text.toUTF8).size ≤ n then none
          else some (.error (.output Sink.refusal span)))
        { m with sink := (⟨m.sink.bytes ++ text.toUTF8, none⟩ : Sink).upTo n } := by
  obtain ⟨heap, stack, sink, log⟩ := m
  dsimp only at hsize ⊢
  unfold write Machine.upTo
  dsimp only
  rw [Sink.write_upTo hsize]
  by_cases hfits : (sink.bytes ++ text.toUTF8).size ≤ n
  · simp only [hfits, decide_true, if_true, ended]
  · simp only [hfits, decide_false, Bool.false_eq_true, if_false, ended]

theorem prints_write (text : String) (span : Span) : Prints span (write text span) := by
  intro m hroom
  refine ⟨none, _, write_free hroom text span, by simp, ⟨rfl, _, rfl⟩, ?_⟩
  intro n hsize
  exact write_upTo hsize text span

theorem prints_writePieces (span : Span) (fuel : Nat) (pieces : List Piece) :
    Prints span (writePieces span fuel pieces) := by
  induction fuel generalizing pieces with
  | zero =>
    intro m hroom
    cases pieces with
    | nil => exact ⟨none, m.sink, rfl, by simp, .refl hroom, fun n hsize => by rw [if_pos hsize]; rfl⟩
    | cons _ _ =>
      exact ⟨some .exhausted, m.sink, rfl, by simp, .refl hroom, fun n hsize => by
        rw [if_pos hsize]; rfl⟩
  | succ fuel ih =>
    intro m hroom
    cases pieces with
    | nil => exact ⟨none, m.sink, rfl, by simp, .refl hroom, fun n hsize => by rw [if_pos hsize]; rfl⟩
    | cons p rest =>
      cases p with
      | value v => exact ih (m.heap.pieces v ++ rest) m hroom
      | text s =>
        obtain ⟨stop, sink, hm, hstop, hgrows, hlimited⟩ :=
          ih rest { m with sink := ⟨m.sink.bytes ++ s.toUTF8, none⟩ } rfl
        refine ⟨stop, sink, ?_, hstop, .trans ⟨rfl, s.toUTF8, rfl⟩ hgrows, ?_⟩
        · simp only [writePieces, write_free hroom, hm]
        intro n hsize
        simp only [writePieces, write_upTo hsize]
        -- the limit lies behind this text, or within it, and then the rest is not tried
        by_cases hfits : (m.sink.bytes ++ s.toUTF8).size ≤ n
        · rw [if_pos hfits]
          exact hlimited n hfits
        · have hover : n < (m.sink.bytes ++ s.toUTF8).size := Nat.lt_of_not_le hfits
          have hlater : ¬ sink.bytes.size ≤ n := by
            have := hgrows.size_le
            dsimp only at this
            omega
          rw [if_neg hfits, if_neg hlater, hgrows.upTo_eq hover]
          rfl

theorem prints_print (fuel : Nat) (v : Option Value) (span : Span) : Prints span (print fuel v span) := by
  unfold print
  split
  · exact prints_write _ span
  · exact prints_writePieces span fuel _

end Eval

/-! ## Three runs side by side -/

def machineOf : EStateM.Result Stop Machine α → Machine
  | .ok _ m => m
  | .error _ m => m

/-- How the free, the limited and the supervised run of one computation end: all
in step, or the latter two with the same error, behind more than `n` bytes. -/
inductive CutOff (n : Nat) : (free limited supervised : EStateM.Result Stop Machine α) → Prop
  | ok (a : α) (m : Machine) : m.sink.bytes.size ≤ n → CutOff n (.ok a m) (.ok a (m.upTo n)) (.ok a m)
  | stopped (e : Stop) (m : Machine) : m.sink.bytes.size ≤ n →
    CutOff n (.error e m) (.error e (m.upTo n)) (.error e m)
  | crossed (free : EStateM.Result Stop Machine α) (span : Span) (m : Machine) :
    n < m.sink.bytes.size → m.sink.Grows (machineOf free).sink →
    CutOff n free (.error (.error (.output Sink.refusal span)) (m.upTo n))
      (.error (.error (.output Sink.refusal span)) m)

namespace Eval

def Grows (act : Eval α) : Prop :=
  ∀ m : Machine, m.sink.room = none → m.sink.Grows (machineOf (act m)).sink

/-- `act` free and limited, and `act'` supervised, are cut off at the same place. -/
structure Cuts (n : Nat) (act act' : Eval α) : Prop where
  grows : act.Grows
  cut : ∀ m : Machine, m.sink.room = none → m.sink.bytes.size ≤ n →
    CutOff n (act m) (act (m.upTo n)) (act' m)

section
variable {α β : Type} {n : Nat}

theorem Grows.bind {x : Eval α} {f : α → Eval β} (hx : x.Grows) (hf : ∀ a, (f a).Grows) :
    (x >>= f).Grows := by
  intro m hroom
  have h := hx m hroom
  change m.sink.Grows (machineOf (EStateM.bind x f m)).sink
  unfold EStateM.bind
  cases hm : x m with
  | error e m' => rw [hm] at h; exact h
  | ok a m' => rw [hm] at h; exact h.trans (hf a m' h.1)

theorem Silent.update_withSink {change : Machine → Machine} (h : (update change).Silent)
    (m : Machine) (s : Sink) : change { m with sink := s } = { change m with sink := s } := by
  obtain ⟨f, -, hf⟩ := h
  have ending : ∃ u, (f m.heap m.stack).ending = .ok u := by
    have := hf m
    unfold Effect.on update at this
    cases he : (f m.heap m.stack).ending with
    | ok u => exact ⟨u, rfl⟩
    | error e => rw [he] at this; cases this
  obtain ⟨u, hu⟩ := ending
  have h₁ := hf m
  have h₂ := hf { m with sink := s }
  simp only [update, Effect.on, hu, EStateM.Result.ok.injEq, true_and] at h₁ h₂
  rw [h₁, h₂]

theorem Silent.update_sink {change : Machine → Machine} (h : (update change).Silent) (m : Machine) :
    (change m).sink = m.sink := by
  have hsame : change m = { change m with sink := m.sink } := h.update_withSink m m.sink
  rw [hsame]

theorem Silent.update_upTo {change : Machine → Machine} (h : (update change).Silent) (m : Machine) :
    change (m.upTo n) = (change m).upTo n := by
  unfold Machine.upTo
  rw [h.update_withSink, h.update_sink]

theorem Cuts.silent {act : Eval α} (h : act.Silent) : act.Cuts n act := by
  obtain ⟨f, -, hf⟩ := h
  constructor
  · intro m hroom
    rw [hf m]
    unfold Effect.on
    cases (f m.heap m.stack).ending <;> exact .refl hroom
  · intro m hroom hsize
    have hlimited : act (m.upTo n) = (f m.heap m.stack).on (m.sink.upTo n) m.log := hf (m.upTo n)
    rw [hlimited, hf m]
    unfold Effect.on
    cases (f m.heap m.stack).ending with
    | ok a => exact .ok a ⟨_, _, m.sink, _⟩ hsize
    | error e => exact .stopped e ⟨_, _, m.sink, _⟩ hsize

theorem Cuts.bind {x y : Eval α} {f g : α → Eval β} (hx : x.Cuts n y) (hf : ∀ a, (f a).Cuts n (g a)) :
    (x >>= f).Cuts n (y >>= g) := by
  refine ⟨hx.grows.bind fun a => (hf a).grows, ?_⟩
  intro m hroom hsize
  have hgrows := (hx.grows.bind fun a => (hf a).grows) m hroom
  have hfree := hx.grows m hroom
  have h := hx.cut m hroom hsize
  change CutOff n (EStateM.bind x f m) (EStateM.bind x f (m.upTo n)) (EStateM.bind y g m)
  unfold EStateM.bind
  generalize x m = free, x (m.upTo n) = limited, y m = supervised at h hfree ⊢
  cases h with
  | ok a m₁ hm₁ => exact (hf a).cut m₁ hfree.1 hm₁
  | stopped e m₁ hm₁ => exact .stopped e m₁ hm₁
  | crossed _ span m₁ hm₁ hafter =>
    cases free with
    | ok a m₂ => exact .crossed _ span m₁ hm₁ (hafter.trans ((hf a).grows m₂ hfree.1))
    | error e m₂ => exact .crossed _ span m₁ hm₁ hafter

theorem Cuts.orUndo {x y : Eval α} {undo : Machine → Machine} (h : x.Cuts n y)
    (hu : (update undo).Silent) : (x.orUndo undo).Cuts n (y.orUndo undo) := by
  constructor
  · intro m hroom
    have hfree := h.grows m hroom
    unfold Eval.orUndo
    cases hm : x m with
    | ok a m₁ => rw [hm] at hfree; exact hfree
    | error e m₁ =>
      rw [hm] at hfree
      simpa [machineOf, hu.update_sink] using hfree
  · intro m hroom hsize
    have h := h.cut m hroom hsize
    unfold Eval.orUndo
    generalize x m = free, x (m.upTo n) = limited, y m = supervised at h ⊢
    cases h with
    | ok a m₁ hm₁ => exact .ok a m₁ hm₁
    | stopped e m₁ hm₁ =>
      dsimp only
      rw [hu.update_upTo]
      exact .stopped e (undo m₁) (by rw [hu.update_sink]; exact hm₁)
    | crossed _ span m₁ hm₁ hafter =>
      dsimp only
      rw [hu.update_upTo]
      refine .crossed _ span (undo m₁) (by rw [hu.update_sink]; exact hm₁) ?_
      cases free <;> simpa [machineOf, hu.update_sink] using hafter

theorem Cuts.thenClose {x y : Eval α} {close : Machine → Machine} (h : x.Cuts n y)
    (hc : (update close).Silent) : (x.thenClose close).Cuts n (y.thenClose close) := by
  constructor
  · intro m hroom
    have hfree := h.grows m hroom
    unfold Eval.thenClose
    cases hm : x m <;> rw [hm] at hfree <;> simpa [machineOf, hc.update_sink] using hfree
  · intro m hroom hsize
    have h := h.cut m hroom hsize
    unfold Eval.thenClose
    generalize x m = free, x (m.upTo n) = limited, y m = supervised at h ⊢
    cases h with
    | ok a m₁ hm₁ =>
      dsimp only
      rw [hc.update_upTo]
      exact .ok a (close m₁) (by rw [hc.update_sink]; exact hm₁)
    | stopped e m₁ hm₁ =>
      dsimp only
      rw [hc.update_upTo]
      exact .stopped e (close m₁) (by rw [hc.update_sink]; exact hm₁)
    | crossed _ span m₁ hm₁ hafter =>
      dsimp only
      rw [hc.update_upTo]
      refine .crossed _ span (close m₁) (by rw [hc.update_sink]; exact hm₁) ?_
      cases free <;> simpa [machineOf, hc.update_sink] using hafter

end

end Eval

/-! ## Statements -/

theorem cuts_congruence (n : Nat) : Congruence (Eval.Cuts n) where
  silent := Eval.Cuts.silent
  bind := Eval.Cuts.bind
  orUndo := Eval.Cuts.orUndo
  thenClose := Eval.Cuts.thenClose

/-! What supervision by `cutAt` does to a statement, by the way it ends. -/

section
variable {n : Nat} {node : Node} {statement : Eval Flow} {m m' : Machine}

theorem cutAt_of_ne (h : node.headKeyword? ≠ some .print) : cutAt n node statement = statement := by
  funext m
  unfold cutAt
  split
  · rename_i e m' hm
    exact hm.symm
  · simp [h]

theorem cutAt_failed {e : RuntimeError} (h : statement m = .error (.error e) m') :
    cutAt n node statement m = .error (.error e) m' := by
  unfold cutAt
  rw [h]

theorem cutAt_within (h : (machineOf (statement m)).sink.bytes.size ≤ n) :
    cutAt n node statement m = statement m := by
  unfold cutAt
  split
  · rename_i e m' hm
    exact hm.symm
  · have hafter : statement.after m = machineOf (statement m) := by
      unfold Eval.after machineOf
      rfl
    rw [hafter]
    simp [Nat.not_lt.mpr h]

def printed (stop : Option Stop) (m : Machine) : EStateM.Result Stop Machine Flow :=
  match stop with
  | none => .ok .normal m
  | some e => .error e m

theorem machineOf_printed (stop : Option Stop) (m : Machine) : machineOf (printed stop m) = m := by
  cases stop <;> rfl

theorem cutAt_over {stop : Option Stop} (hnode : node.headKeyword? = some .print)
    (hsize : m.sink.bytes.size ≤ n) (hover : n < m'.sink.bytes.size)
    (hstop : ∀ e, stop ≠ some (.error e)) (h : statement m = printed stop m') :
    cutAt n node statement m = .error (.error (.output Sink.refusal node.span)) m' := by
  have hafter : statement.after m = m' := by
    rw [Eval.after, h]
    cases stop <;> rfl
  unfold cutAt
  split
  · rename_i e m'' hm
    rw [h] at hm
    cases stop with
    | none => cases hm
    | some stop => cases hm; exact (hstop e rfl).elim
  · simp [hafter, hnode, hsize, hover]

end

def printing (fuel : Nat) (v : Option Value) (span : Span) : Eval Flow := do
  (Eval.print fuel v span).thenClose (Machine.release v)
  pure .normal

theorem printing_ended {fuel : Nat} {v : Option Value} {span : Span} {m m' : Machine}
    {stop : Option Stop} (h : Eval.print fuel v span m = Eval.ended stop m') :
    printing fuel v span m = printed stop (m'.release v) := by
  simp only [printing, bind, EStateM.bind, Eval.thenClose, h]
  cases stop <;> rfl

theorem printing_grows (fuel : Nat) (v : Option Value) (span : Span) :
    (printing fuel v span).Grows := by
  intro m hroom
  obtain ⟨stop, sink, hm, -, hgrows, -⟩ := Eval.prints_print fuel v span m hroom
  rw [printing_ended hm, machineOf_printed]
  exact hgrows

theorem Node.headKeyword?_inv {node : Node} {k : Keyword} (h : node.headKeyword? = some k) :
    ∃ head args span tag, node = .branch (.leaf head :: args) span tag ∧ head.kind = .keyword k := by
  rcases node with l | ⟨_ | ⟨head | ⟨cs, s, t⟩, args⟩, span, tag⟩
  · cases h
  · cases h
  · refine ⟨head, args, span, tag, rfl, ?_⟩
    simp only [headKeyword?, children, List.head?_cons, Option.bind_some, keyword?,
      Leaf.keyword?] at h
    split at h
    · cases h; assumption
    · cases h
  · cases h

/-- A `print` form has the wrong number of operands, or prints its one operand. -/
theorem runBlock_print (c : Code) (fuel : Nat) {node : Node}
    (hnode : node.headKeyword? = some .print) :
    (∃ e, ∀ w, c.runBlock w fuel node = Eval.fail e) ∨
    ∃ operand, ∀ w, c.runBlock w fuel node =
      (w.eval operand >>= fun v => printing fuel v node.span) := by
  obtain ⟨head, args, span, tag, rfl, hkind⟩ := Node.headKeyword?_inv hnode
  have hrun (w : Walk) : c.runBlock w fuel (.branch (.leaf head :: args) span tag) =
      Code.runKeyword w fuel .print args span := by
    simp only [Code.runBlock, Code.runForm, hkind]
  cases hcheck : checkArity .print args span with
  | error e =>
    refine .inl ⟨e, fun w => ?_⟩
    rw [hrun]
    unfold Code.runKeyword
    rw [hcheck]
    rfl
  | ok u =>
    obtain ⟨operand, rfl⟩ := one_operand hcheck rfl
    refine .inr ⟨operand, fun w => ?_⟩
    rw [hrun]
    unfold Code.runKeyword
    rw [hcheck]
    rfl

section
variable {n : Nat} {w w' : Walk} (hw : Walk.Pairs (Eval.Cuts n) w w')
include hw

theorem cuts_print (c : Code) (fuel : Nat) {node : Node} (hnode : node.headKeyword? = some .print) :
    (c.runBlock w fuel node).Cuts n (cutAt n node (c.runBlock w' fuel node)) := by
  obtain ⟨e, hfail⟩ | ⟨operand, hrun⟩ := runBlock_print c fuel hnode
  · rw [hfail, hfail]
    refine ⟨(Eval.Cuts.silent (n := n) (Eval.silent_fail e)).grows, ?_⟩
    intro m _ hsize
    have hfailed : (Eval.fail e : Eval Flow) m = .error (.error e) m := rfl
    rw [cutAt_failed hfailed]
    exact .stopped (.error e) m hsize
  rw [hrun, hrun]
  refine ⟨(hw.eval operand).grows.bind fun v => printing_grows fuel v node.span, ?_⟩
  intro m hroom hsize
  have hfree := (hw.eval operand).grows m hroom
  have hoperand := (hw.eval operand).cut m hroom hsize
  have hsupervised : (w'.eval operand >>= fun v => printing fuel v node.span) m =
      match w'.eval operand m with
      | .ok v m₁ => printing fuel v node.span m₁
      | .error e m₁ => .error e m₁ := by
    simp only [bind, EStateM.bind]
    cases w'.eval operand m <;> rfl
  change CutOff n (EStateM.bind _ _ m) (EStateM.bind _ _ (m.upTo n)) _
  unfold EStateM.bind
  generalize w.eval operand m = free, w.eval operand (m.upTo n) = limited,
    w'.eval operand m = supervised at hfree hoperand hsupervised ⊢
  cases hoperand with
  | stopped e m₁ hm₁ =>
    rw [cutAt_within (by rw [hsupervised]; exact hm₁), hsupervised]
    exact .stopped e m₁ hm₁
  | crossed _ span m₁ hm₁ hafter =>
    rw [cutAt_failed hsupervised]
    refine .crossed _ span m₁ hm₁ ?_
    cases free with
    | error e m₂ => exact hafter
    | ok v m₂ => exact hafter.trans (printing_grows fuel v node.span m₂ hfree.1)
  | ok v m₁ hm₁ =>
    -- the operand went in step, so the form crosses the limit only by its own text
    obtain ⟨stop, sink, hm, hstop, hgrows, hlimited⟩ :=
      Eval.prints_print fuel v node.span m₁ hfree.1
    have hlimited := printing_ended (hlimited n hm₁)
    have hm := printing_ended hm
    dsimp only at hsupervised ⊢
    rw [hm] at hsupervised
    rw [hm, hlimited]
    by_cases hfits : sink.bytes.size ≤ n
    · rw [if_pos hfits, cutAt_within (by rw [hsupervised, machineOf_printed]; exact hfits), hsupervised]
      cases stop with
      | none => exact .ok Flow.normal (Machine.release v { m₁ with sink := sink }) hfits
      | some e => exact .stopped e (Machine.release v { m₁ with sink := sink }) hfits
    · have hover : n < sink.bytes.size := Nat.lt_of_not_le hfits
      rw [if_neg hfits, cutAt_over hnode hsize hover hstop hsupervised]
      refine .crossed _ node.span (Machine.release v { m₁ with sink := sink }) hover ?_
      rw [machineOf_printed]
      exact .refl hgrows.1

theorem cuts_runBlock (c : Code) (fuel : Nat) (node : Node) :
    (c.runBlock w fuel node).Cuts n (cutAt n node (c.runBlock w' fuel node)) := by
  by_cases hnode : node.headKeyword? = some .print
  · exact cuts_print hw c fuel hnode
  · rw [cutAt_of_ne hnode]
    exact (cuts_congruence n).runBlock hw c fuel hnode

end

/-! ## Whole runs -/

/-- `beside` supervises as `cutAt n` does, as long as no more than `n` bytes are
out. What it does to statements that start later is left open. -/
def CutsAt (n : Nat) (beside : Node → Eval Flow → Eval Flow) : Prop :=
  ∀ node statement (m : Machine), m.sink.bytes.size ≤ n →
    beside node statement m = cutAt n node statement m

theorem walk_cuts {n : Nat} {beside : Node → Eval Flow → Eval Flow} (hb : CutsAt n beside) (c : Code)
    (fuel : Nat) : Walk.Pairs (Eval.Cuts n) (c.walk fuel) (c.walkBeside beside fuel) := by
  induction fuel with
  | zero => exact ⟨fun _ => .silent Eval.silent_exhausted, fun _ => .silent Eval.silent_exhausted⟩
  | succ fuel ih =>
    rw [Code.walk_succ, Code.walkBeside_succ]
    refine ⟨fun node => (cuts_congruence n).evalNode ih c node, fun node => ?_⟩
    have h := cuts_runBlock ih c fuel node
    refine ⟨h.grows, ?_⟩
    intro m hroom hsize
    dsimp only
    -- `beside` is known only where no more than `n` bytes are out, as they are here
    rw [hb node _ m hsize]
    exact h.cut m hroom hsize

theorem run_cuts {n : Nat} {beside : Node → Eval Flow → Eval Flow} (hb : CutsAt n beside) (c : Code)
    (fuel : Nat) : (c.run fuel).Cuts n (c.runBeside beside fuel) := by
  have hmain (span : Span) := (cuts_congruence n).thenClose
    ((cuts_congruence n).call (walk_cuts hb c fuel) c 0 [] span)
    (Eval.silent_update_note (fun s => .mainFinished s.size) fun _ => .inl rfl)
  exact ⟨fun m => (hmain _).grows (m.note .mainStarted), fun m => (hmain _).cut (m.note .mainStarted)⟩

/-- A sink for `n` bytes gets the first `n` bytes of what the program writes to a
sink without limit. If that is all of them, the run ends as the free one does.
Otherwise it ends with an output error at the `print` form that wrote the byte
behind them: this is where supervision by `cutAt n` stops the free run, and what
it does to statements that would start later makes no difference, as there are
none. -/
theorem output_cut_off (p : Program) (limit : Option Nat) (log : Log) (n fuel : Nat) :
    let c := (Interpreter.start p limit {} log).code
    let m := (Interpreter.start p limit {} log).machine
    let limited := (Interpreter.start p limit ⟨.empty, some n⟩ log).machine
    let output := ((c.run fuel).after m).sink.bytes
    ((c.run fuel).after limited).sink.bytes = output.extract 0 n ∧
    (output.size ≤ n →
      (∀ v m', c.run fuel m = .ok v m' → c.run fuel limited = .ok v (m'.upTo n)) ∧
      (∀ e m', c.run fuel m = .error e m' → c.run fuel limited = .error e (m'.upTo n))) ∧
    (n < output.size → ∃ span stopped,
      c.run fuel limited = .error (.error (.output Sink.refusal span)) stopped ∧
      ∀ beside, CutsAt n beside → ∃ m',
        c.runBeside beside fuel m = .error (.error (.output Sink.refusal span)) m' ∧
        n < m'.sink.bytes.size ∧ m'.upTo n = stopped) := by
  intro c m limited output
  have hstart : limited = m.upTo n := by
    have hnone : ByteArray.empty.extract 0 n = .empty := by
      rw [ByteArray.extract_eq_empty_iff]
      simp
    simp only [limited, m, Interpreter.start, Machine.upTo, Sink.upTo, hnone]
    rfl
  have hafter (m : Machine) : (c.run fuel).after m = machineOf (c.run fuel m) := rfl
  have hcut {beside} (hb : CutsAt n beside) := (run_cuts hb c fuel).cut m rfl (Nat.zero_le n)
  have hself : CutsAt n (cutAt n) := fun _ _ _ _ => rfl
  have hplain := hcut hself
  simp only [output, hafter, hstart]
  generalize c.run fuel m = free, c.run fuel (m.upTo n) = cut, c.runBeside (cutAt n) fuel m = watched
    at hplain hcut ⊢
  -- the supervised run tells which of the three endings the free one had
  cases hplain with
  | ok v m₁ hsize =>
    refine ⟨rfl, fun _ => ⟨?_, ?_⟩, fun hover => absurd hsize (Nat.not_le.mpr hover)⟩
    · rintro v m' ⟨⟩
      rfl
    · rintro e m' ⟨⟩
  | stopped e m₁ hsize =>
    refine ⟨rfl, fun _ => ⟨?_, ?_⟩, fun hover => absurd hsize (Nat.not_le.mpr hover)⟩
    · rintro v m' ⟨⟩
    · rintro e m' ⟨⟩
      rfl
  | crossed _ span m₁ hover hgrows =>
    have hsame := congrArg Sink.bytes (hgrows.upTo_eq hover)
    refine ⟨hsame.symm, fun hsize => ?_, fun _ => ⟨span, m₁.upTo n, rfl, ?_⟩⟩
    · exact absurd (Nat.le_trans hgrows.size_le hsize) (Nat.not_le.mpr hover)
    · intro beside hb
      have hother := hcut hb
      generalize c.runBeside beside fuel m = other, m₁.upTo n = stopped at hother ⊢
      cases hother with
      | stopped _ m₂ hsize => exact absurd (Nat.le_trans hgrows.size_le hsize) (Nat.not_le.mpr hover)
      | crossed _ _ m₂ hover₂ hgrows₂ => exact ⟨m₂, rfl, hover₂, rfl⟩

end Lisplet
