import Z80.Proofs.Run

/-!
# Refused lines

A line that is refused counts as a line and changes nothing else, so a session goes on as if the
line had been empty.
-/

namespace Z80.Session

variable {setup : Setup} {s : Session} {raw : Text}

/-- The lines, with an empty one for each that is refused. -/
def blankRefused (setup : Setup) (s : Session) (lines : List Text) : List Text :=
  List.zipWith (fun raw outcome => if outcome.2.isSome then [] else raw) lines
    (s.replay setup lines).2

/-! ## One line -/

@[simp] theorem push_nil (setup : Setup) (s : Session) : s.push setup [] = (s.count, .ok []) := rfl

/-- A line is refused before it has changed or reported anything, so it only counts. -/
theorem take_refused {fault : Fault} (h : (s.take setup raw).1 = .error fault) :
    (s.take setup raw).2 = ⟨{ s with lines := s.lines + 1 }, []⟩ :=
  Task.atomic_step setup raw ⟨s.count, []⟩ fault _ (Prod.ext h rfl)

theorem push_refused {failure : Failure} (h : (s.push setup raw).2 = .error failure) :
    (s.push setup raw).1 = { s with lines := s.lines + 1 } := by
  rw [push] at h ⊢
  cases htake : s.take setup raw with
  | mk result w =>
    rw [htake] at h
    cases result with
    | error fault =>
      have hw := take_refused (congrArg Prod.fst htake)
      rw [htake] at hw
      exact congrArg Work.session hw
    | ok _ => cases h

/-! ## Whole sessions -/

theorem blankRefused_cons_of_error (rest : List Text) {fault : Fault}
    (h : s.interpret setup raw = .error fault) :
    s.blankRefused setup (raw :: rest) = [] :: s.count.blankRefused setup rest := by
  rw [blankRefused, replay, push_of_error h]
  rfl

theorem blankRefused_cons_of_ok (rest : List Text) {step : Step}
    (h : s.interpret setup raw = .ok step) :
    s.blankRefused setup (raw :: rest) =
      raw :: (s.count.apply step).blankRefused setup rest := by
  rw [blankRefused, replay, push_of_ok h]
  rfl

/-- Empty lines instead of the refused ones leave the session and its positions as they are, and
none of them is refused. -/
@[simp] theorem replay_blankRefused (setup : Setup) (s : Session) (lines : List Text) :
    s.replay setup (s.blankRefused setup lines) =
      ((s.replay setup lines).1,
        (s.replay setup lines).2.map fun outcome => (outcome.1, none)) := by
  induction lines generalizing s with
  | nil => rfl
  | cons raw rest ih =>
    cases h : s.interpret setup raw with
    | error fault =>
      rw [blankRefused_cons_of_error rest h, replay, push_nil, replay, push_of_error h]
      dsimp only
      rw [ih s.count]
      rfl
    | ok step =>
      rw [blankRefused_cons_of_ok rest h, replay, replay, push_of_ok h]
      dsimp only
      rw [ih (s.count.apply step)]
      rfl

/-- In any session, a line that is refused leaves everything but the number of lines as it is,
wherever on the way it is refused, and nothing is reported of it.  So a session that takes some
lines, and one that takes an empty line for each of them that is refused, have the same positions
after each line, the same state and the same end; and in the second none is refused. -/
theorem refusal_atomic (setup : Setup) (s : Session) :
    (∀ raw fault, (s.take setup raw).1 = .error fault →
      (s.take setup raw).2 = ⟨{ s with lines := s.lines + 1 }, []⟩) ∧
    (∀ raw failure, (s.push setup raw).2 = .error failure →
      (s.push setup raw).1 = { s with lines := s.lines + 1 }) ∧
    ∀ lines,
      (s.replay setup (s.blankRefused setup lines)).1 = (s.replay setup lines).1 ∧
      (s.replay setup (s.blankRefused setup lines)).2.map Prod.fst =
        (s.replay setup lines).2.map Prod.fst ∧
      (∀ outcome ∈ (s.replay setup (s.blankRefused setup lines)).2, outcome.2 = none) ∧
      (s.replay setup (s.blankRefused setup lines)).1.finish setup =
        (s.replay setup lines).1.finish setup := by
  refine ⟨fun raw fault h => take_refused h, fun raw failure h => push_refused h, fun lines => ?_⟩
  rw [replay_blankRefused]
  refine ⟨rfl, ?_, ?_, rfl⟩
  · rw [List.map_map]
    rfl
  · intro outcome houtcome
    obtain ⟨_, -, rfl⟩ := List.mem_map.mp houtcome
    rfl

/-- The fourth line of the sample is refused, and might be empty. -/
theorem sample_refusal_atomic :
    start.blankRefused sampleSetup sampleLines = sampleLines.set 3 [] ∧
    (start.replay sampleSetup (sampleLines.set 3 [])).1 =
      (start.replay sampleSetup sampleLines).1 := by
  have hblank : start.blankRefused sampleSetup sampleLines = sampleLines.set 3 [] := by
    decide +kernel
  obtain ⟨hstate, -⟩ := (refusal_atomic sampleSetup start).2.2 sampleLines
  rw [hblank] at hstate
  exact ⟨hblank, hstate⟩

end Z80.Session
