import Lisplet.Command

/-!
# Where a source comes from

Names lead from directory to directory; empty names and single dots in between lead
nowhere else, and two dots take a name back. The command answers to the bytes that it
finds: whether they are in a file or come from standard input makes no difference, and
only a source that cannot be read or a refused command line gives the exit status 2.
-/

namespace Lisplet

/-! ## Paths -/

namespace FileTree

variable {above : List FileTree} {here : FileTree}

theorem walk_append_congr {ys zs : List String}
    (h : ∀ above here, walk above here ys = walk above here zs) (xs : List String) :
    walk above here (xs ++ ys) = walk above here (xs ++ zs) := by
  -- the way back changes with every name, so the induction is for all ways
  induction xs generalizing above here with
  | nil => exact h above here
  | cons name xs ih =>
    cases here with
    | file bytes => rfl
    | directory entries =>
      simp only [List.cons_append, walk, ih]

/-- The last name is left out: behind a file even an empty name is one too many. -/
theorem walk_skip {name : String} (hname : name = "" ∨ name = ".") (xs : List String) {ys : List String}
    (hys : ys ≠ []) : walk above here (xs ++ name :: ys) = walk above here (xs ++ ys) := by
  refine walk_append_congr (fun above here => ?_) xs
  obtain ⟨y, ys, rfl⟩ := List.exists_cons_of_ne_nil hys
  cases here with
  | file bytes => rfl
  | directory entries => simp only [walk, hname, if_true]

theorem walk_back {entries inside : List (String × FileTree)} {name : String}
    (hname : name ≠ "" ∧ name ≠ "." ∧ name ≠ "..") (hchild : child entries name = .ok (directory inside))
    (names : List String) :
    walk above (directory entries) (name :: ".." :: names) = walk above (directory entries) names := by
  obtain ⟨hblank, hdot, hup⟩ := hname
  simp [walk, hblank, hdot, hup, hchild]

end FileTree

/-! ## The command -/

variable {arguments arguments' : List String} {o : Options} (w : Surroundings)
  (setting : Option String) (fuel : Nat) (colors : Bool)

theorem command_refused {refusal : Refusal} (h : Options.ofArguments arguments = .error refusal) :
    command (m := Id) arguments setting w.read fuel colors = refusal.respond := by
  unfold command
  rw [h]
  rfl

/-- Whether the source is read or, for the self checks, left alone, makes no difference. -/
theorem command_accepted (h : Options.ofArguments arguments = .ok o) :
    command (m := Id) arguments setting w.read fuel colors =
      o.respond setting (w.read o.file) fuel colors := by
  unfold command
  rw [h]
  cases ht : o.test with
  | true =>
    simp only [Options.needsSource, Options.respond, ht, Bool.not_true, Bool.false_eq_true, if_false, if_true]
    rfl
  | false =>
    simp only [Options.needsSource, ht, Bool.not_false, if_true]
    rfl

/-- Once a file is read, its name is forgotten. -/
theorem respond_unnamed (o : Options) (bytes : ByteArray) :
    o.respond setting (.ok bytes) fuel colors =
      { o with file := none }.respond setting (.ok bytes) fuel colors := rfl

/-- A file gives the response that its bytes give at standard input. -/
theorem command_of_file {path : String} {bytes : ByteArray} (h : Options.ofArguments arguments = .ok o)
    (h' : Options.ofArguments arguments' = .ok { o with file := none }) (hfile : o.file = some path)
    (hread : w.files.read w.home path = .ok bytes) :
    command (m := Id) arguments setting w.read fuel colors =
      command (m := Id) arguments' setting { w with stdin := bytes }.read fuel colors := by
  have hpath : w.read o.file = .ok bytes := by rw [hfile]; exact hread
  rw [command_accepted w setting fuel colors h, command_accepted { w with stdin := bytes } setting fuel colors h',
    hpath]
  exact respond_unnamed setting fuel colors o bytes

/-! ## Exit statuses -/

theorem respondText_exit_le (source : List Char) (bytes : Nat) (log : Log) :
    (o.respondText source bytes log fuel colors).exit ≤ 1 := by
  unfold Options.respondText
  dsimp only
  split
  · exact Nat.le_refl 1
  split
  · exact Nat.le_refl 1
  unfold Options.respondProgram
  dsimp only
  split
  · exact Nat.zero_le 1
  split <;> simp [respondFailure]

theorem respondChecks_exit_le (log : Log) : (respondChecks log colors).exit ≤ 1 := by
  unfold respondChecks
  dsimp only
  split <;> simp

theorem respond_exit (source : Except AccessError ByteArray) :
    (o.respond setting source fuel colors).exit ≤ 2 ∧
      ((o.respond setting source fuel colors).exit = 2 ↔ o.test = false ∧ ∃ e, source = .error e) := by
  have of_le {r : Response} {p : Prop} (hr : r.exit ≤ 1) (hp : ¬ p) : r.exit ≤ 2 ∧ (r.exit = 2 ↔ p) :=
    ⟨by omega, iff_of_false (by omega) hp⟩
  unfold Options.respond
  dsimp only
  cases ht : o.test with
  | true =>
    rw [if_pos rfl]
    exact of_le (respondChecks_exit_le colors _) (by simp)
  | false =>
    rw [if_neg (by simp)]
    cases source with
    | error e => exact ⟨Nat.le_refl 2, by simp⟩
    | ok bytes =>
      cases hd : decodeSource bytes with
      | error e =>
        simp only [hd]
        exact of_le (Nat.le_refl 1) (by simp)
      | ok cs =>
        simp only [hd]
        exact of_le (respondText_exit_le fuel colors cs bytes.size _) (by simp)

theorem Refusal.respond_exit (refusal : Refusal) : refusal.respond.exit ≤ 2 ∧
    (refusal.respond.exit = 2 ↔ refusal ≠ .help ∧ refusal ≠ .version) := by
  cases refusal <;> simp [respond]

/-- The exit status 2 is for command lines that are refused, other than those that ask for a
text, and for sources that are needed and cannot be read. -/
theorem command_exit :
    let status := (command (m := Id) arguments setting w.read fuel colors).exit
    status ≤ 2 ∧ (status = 2 ↔
      (∃ refusal, Options.ofArguments arguments = .error refusal ∧ refusal ≠ .help ∧ refusal ≠ .version) ∨
        ∃ o, Options.ofArguments arguments = .ok o ∧ o.test = false ∧ ∃ e, w.read o.file = .error e) := by
  cases h : Options.ofArguments arguments with
  | error refusal =>
    rw [command_refused w setting fuel colors h]
    simpa using refusal.respond_exit
  | ok o =>
    rw [command_accepted w setting fuel colors h]
    simpa using respond_exit setting fuel colors (o := o) (w.read o.file)

end Lisplet
