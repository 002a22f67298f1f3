import Z80.Proofs.Run

/-!
# Runs line by line

The steps of a run, each with the number of the line that makes it: numbers grow along a run, and
the steps are those of the lines that are accepted.  A source is taken only up to the first line
that is refused, which `advance` says apart from the end of the session.
-/

namespace Z80

/-- The setup with another origin in its settings.  Lines are read in the same way. -/
def Setup.withOrigin (setup : Setup) (origin : Option Address) : Setup :=
  { setup with settings := { setup.settings with origin := origin } }

/-- Two lines that say the same, or are refused for the same reason, whatever the variables are. -/
def Line.Alike (raw raw' : Text) : Prop := ∀ vars, Line.read vars raw' = Line.read vars raw

namespace Session

variable {setup : Setup} {s after : Session} {raw : Text} {history : History}

/-! ## One line -/

/-- A line with a statement does what the encoder says, or is refused for its reason. -/
theorem interpret_statement {text : Text} {statement : Statement}
    (hline : Line.read s.bindings raw = .ok (.statement text))
    (hstatement : Statement.read setup.table.vocabulary text = .ok statement) :
    s.interpret setup raw =
      (Encoding.ofStatement setup.table statement).map (Step.emit statement) := by
  rw [interpret, hline]
  change (Statement.read setup.table.vocabulary text >>= fun statement =>
    Encoding.ofStatement setup.table statement >>= fun encoding =>
      pure (Step.emit statement encoding)) = _
  rw [hstatement]
  change (Encoding.ofStatement setup.table statement >>= fun encoding =>
    pure (Step.emit statement encoding)) = _
  cases Encoding.ofStatement setup.table statement <;> rfl

@[simp]
theorem interpret_withOrigin (setup : Setup) (origin : Option Address) (s : Session) (raw : Text) :
    s.interpret (setup.withOrigin origin) raw = s.interpret setup raw := rfl

/-- What a line does depends on the variables and on which labels there are, and on nothing else. -/
theorem interpret_congr {t : Session} (hbindings : t.bindings = s.bindings)
    (hlabels : ∀ name, (t.labels.get? name).isSome = (s.labels.get? name).isSome) :
    t.interpret setup raw = s.interpret setup raw := by
  rw [interpret, interpret, hbindings]
  refine bind_congr fun line => ?_
  cases line with
  | label name =>
    dsimp only
    rw [hlabels name]
  | _ => rfl

/-! ### Lines that say the same -/

/-- A line does what every line does that says the same. -/
theorem interpret_of_alike {raw' : Text} (h : Line.Alike raw raw') (s : Session) :
    s.interpret setup raw' = s.interpret setup raw := by
  rw [interpret, interpret, h]

/-- Sources whose lines say the same, one by one, run alike. -/
theorem run_of_alike {lines lines' : List Text} (h : List.Forall₂ Line.Alike lines lines')
    (s : Session) : s.run setup lines' = s.run setup lines := by
  induction h generalizing s with
  | nil => rfl
  | @cons raw raw' _ _ hline _ ih =>
    have hinterpret : s.interpret setup raw' = s.interpret setup raw := interpret_of_alike hline s
    cases h : s.interpret setup raw with
    | error fault => rw [run_cons_of_error h, run_cons_of_error (hinterpret.trans h)]
    | ok step => rw [run_cons_of_ok h, run_cons_of_ok (hinterpret.trans h), ih]

/-! ## The step of each line -/

/-- The step that each line makes.  A refused line makes none. -/
def lineSteps (setup : Setup) (s : Session) : List Text → List (Option Step)
  | [] => []
  | raw :: rest => (s.interpret setup raw).toOption :: lineSteps setup (s.push setup raw).1 rest

theorem lineSteps_cons_of_error (rest : List Text) {fault : Fault}
    (h : s.interpret setup raw = .error fault) :
    s.lineSteps setup (raw :: rest) = none :: s.count.lineSteps setup rest := by
  rw [lineSteps, push_of_error h, h]
  rfl

theorem lineSteps_cons_of_ok (rest : List Text) {step : Step}
    (h : s.interpret setup raw = .ok step) :
    s.lineSteps setup (raw :: rest) =
      some step :: (s.count.apply step).lineSteps setup rest := by
  rw [lineSteps, push_of_ok h, h]
  rfl

@[simp] theorem length_lineSteps (setup : Setup) (s : Session) (lines : List Text) :
    (s.lineSteps setup lines).length = lines.length := by
  induction lines generalizing s with
  | nil => rfl
  | cons raw rest ih => rw [lineSteps, List.length_cons, List.length_cons, ih]

@[simp] theorem lines_count (s : Session) : s.count.lines = s.lines + 1 := rfl

@[simp] theorem lines_apply (s : Session) (step : Step) : (s.apply step).lines = s.lines := by
  cases step <;> rfl

/-- The steps of a run are those of its lines, by number. -/
theorem exists_mem_steps_iff {lines : List Text} {n : Nat} {step : Step} :
    (∃ t, (t, step) ∈ s.steps setup lines ∧ t.lines = n) ↔
      ∃ i, n = s.lines + (i + 1) ∧ (s.lineSteps setup lines)[i]? = some (some step) := by
  induction lines generalizing s with
  | nil => simp [steps, lineSteps]
  | cons raw rest ih =>
    cases h : s.interpret setup raw with
    | error fault =>
      rw [steps, h, lineSteps_cons_of_error rest h, ih]
      constructor
      · rintro ⟨i, rfl, hi⟩
        exact ⟨i + 1, by rw [lines_count]; omega, hi⟩
      · rintro ⟨i, rfl, hi⟩
        cases i with
        | zero => cases hi
        | succ i => exact ⟨i, by rw [lines_count]; omega, hi⟩
    | ok step' =>
      rw [steps, h, lineSteps_cons_of_ok rest h]
      simp only [List.mem_cons, or_and_right, exists_or, ih, lines_apply, lines_count]
      constructor
      · rintro (⟨t, heq, rfl⟩ | ⟨i, rfl, hi⟩)
        · cases heq
          exact ⟨0, rfl, rfl⟩
        · exact ⟨i + 1, by omega, hi⟩
      · rintro ⟨i, rfl, hi⟩
        cases i with
        | zero =>
          cases hi
          exact .inl ⟨s.count, rfl, rfl⟩
        | succ i => exact .inr ⟨i, by omega, hi⟩

/-! ## Numbers along a run -/

@[simp] theorem lines_push (setup : Setup) (s : Session) (raw : Text) :
    (s.push setup raw).1.lines = s.lines + 1 := by
  cases h : s.interpret setup raw with
  | error fault => rw [push_of_error h, lines_count]
  | ok step => rw [push_of_ok h, lines_apply, lines_count]

@[simp] theorem lines_replay (setup : Setup) (s : Session) (lines : List Text) :
    (s.replay setup lines).1.lines = s.lines + lines.length := by
  induction lines generalizing s with
  | nil => rfl
  | cons raw rest ih =>
    rw [replay_cons_fst, ih, lines_push, List.length_cons]
    omega

namespace Run

theorem le_lines (h : Run setup s history after) : s.lines ≤ after.lines := by
  induction h with
  | done s => exact Nat.le_refl _
  | refused _ _ ih =>
    rw [lines_count] at ih
    omega
  | taken _ _ ih =>
    rw [lines_apply, lines_count] at ih
    omega

theorem lines_lt (h : Run setup s history after) {x : Session × Step} (hx : x ∈ history) :
    s.lines < x.1.lines := by
  induction h with
  | done s => cases hx
  | refused _ _ ih =>
    have hlt := ih hx
    rw [lines_count] at hlt
    omega
  | taken _ _ ih =>
    rcases List.mem_cons.mp hx with rfl | hx
    · exact Nat.lt_succ_self _
    · have hlt := ih hx
      rw [lines_apply, lines_count] at hlt
      omega

theorem lines_le (h : Run setup s history after) {x : Session × Step} (hx : x ∈ history) :
    x.1.lines ≤ after.lines := by
  induction h with
  | done s => cases hx
  | refused _ _ ih => exact ih hx
  | taken _ later ih =>
    rcases List.mem_cons.mp hx with rfl | hx
    · have hle := later.le_lines
      rwa [lines_apply] at hle
    · exact ih hx

theorem pairwise_lines (h : Run setup s history after) :
    history.Pairwise fun x y => x.1.lines < y.1.lines := by
  induction h with
  | done s => exact .nil
  | refused _ _ ih => exact ih
  | taken _ later ih =>
    refine List.pairwise_cons.mpr ⟨fun y hy => ?_, ih⟩
    have hlt := later.lines_lt hy
    rwa [lines_apply] at hlt

/-- A run comes apart at each of its steps. -/
theorem split {earlier later : History} {x : Session × Step}
    (h : Run setup s (earlier ++ x :: later) after) :
    ∃ before, Run setup s earlier before ∧ x.1 = before.count ∧
      Run setup (x.1.apply x.2) later after := by
  -- the induction is on the run, for any history that comes apart at the step
  generalize hwhole : earlier ++ x :: later = whole at h
  induction h generalizing earlier with
  | done s => exact absurd hwhole (by simp)
  | refused refusal _ ih =>
    obtain ⟨before, hearlier, hx, hlater⟩ := ih hwhole
    exact ⟨before, .refused refusal hearlier, hx, hlater⟩
  | @taken s _ _ _ _ acceptance rest ih =>
    cases earlier with
    | nil =>
      cases hwhole
      exact ⟨s, .done s, rfl, rest⟩
    | cons y earlier =>
      rw [List.cons_append] at hwhole
      obtain ⟨rfl, htail⟩ := List.cons.inj hwhole
      obtain ⟨before, hearlier, hx, hlater⟩ := ih htail
      exact ⟨before, .taken acceptance hearlier, hx, hlater⟩

end Run

/-! ## Up to the first refusal -/

/-- The session after lines that are all accepted, or else the failure of the first that is not. -/
def advance (setup : Setup) (s : Session) : List Text → Except Failure Session
  | [] => .ok s
  | raw :: rest =>
    match s.interpret setup raw with
    | .error fault => .error (.line (s.lines + 1) fault)
    | .ok step => advance setup (s.count.apply step) rest

/-- A source is taken up to its first refusal, and then the session ends. -/
theorem run_eq_advance (setup : Setup) (s : Session) (lines : List Text) :
    (s.run setup lines).2 =
      (s.advance setup lines >>= fun after => (after.finish setup).2) := by
  induction lines generalizing s with
  | nil => rfl
  | cons raw rest ih =>
    rw [advance]
    cases h : s.interpret setup raw with
    | error fault =>
      rw [run_cons_of_error h]
      rfl
    | ok step =>
      rw [run_cons_of_ok h]
      exact ih (s.count.apply step)

theorem advance_append (setup : Setup) (s : Session) (lines lines' : List Text) :
    s.advance setup (lines ++ lines') =
      (s.advance setup lines >>= fun middle => middle.advance setup lines') := by
  induction lines generalizing s with
  | nil => rfl
  | cons raw rest ih =>
    rw [List.cons_append, advance, advance]
    cases s.interpret setup raw with
    | error fault => rfl
    | ok step => exact ih (s.count.apply step)

@[simp] theorem advance_withOrigin (setup : Setup) (origin : Option Address) (s : Session)
    (lines : List Text) : s.advance (setup.withOrigin origin) lines = s.advance setup lines := by
  induction lines generalizing s with
  | nil => rfl
  | cons raw rest ih =>
    rw [advance, advance, interpret_withOrigin]
    cases s.interpret setup raw with
    | error fault => rfl
    | ok step => exact ih (s.count.apply step)

/-- Lines of which none sets the origin leave it as it is. -/
theorem origin_of_advance {lines : List Text} (h : s.advance setup lines = .ok after)
    (hnone : ∀ origin, some (.load origin) ∉ s.lineSteps setup lines) :
    after.origin = s.origin := by
  induction lines generalizing s with
  | nil =>
    cases h
    rfl
  | cons raw rest ih =>
    rw [advance] at h
    split at h
    · cases h
    · next step hstep =>
      rw [lineSteps_cons_of_ok rest hstep] at hnone
      rw [ih h fun origin hmem => hnone origin (List.mem_cons_of_mem _ hmem)]
      cases step with
      | load origin => exact absurd List.mem_cons_self (hnone origin)
      | _ => rfl

theorem replay_of_advance {lines : List Text} (h : s.advance setup lines = .ok after) :
    (s.replay setup lines).1 = after := by
  induction lines generalizing s with
  | nil =>
    cases h
    rfl
  | cons raw rest ih =>
    rw [advance] at h
    split at h
    · cases h
    · next step hstep =>
      rw [replay_cons_fst, push_of_ok hstep]
      exact ih h

/-- Lines that are all accepted are taken by a run with their steps. -/
theorem run_of_advance {lines : List Text} (h : s.advance setup lines = .ok after) :
    Run setup s (s.steps setup lines) after :=
  replay_of_advance h ▸ run_replay setup s lines

/-- A source with an assembly is accepted line by line, and the session behind it ends in the
assembly. -/
theorem advance_of_assemble {source : Text} {asm : Assembly} (h : assemble setup source = .ok asm) :
    ∃ after, start.advance setup source.lines = .ok after ∧ (after.finish setup).2 = .ok asm := by
  rw [assemble, trace, run_eq_advance] at h
  exact bind_eq_ok.mp h

end Session

end Z80
