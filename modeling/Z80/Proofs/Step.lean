import Z80.Proofs.Attempt
import Z80.Proofs.Line
import Z80.Session

/-!
# The step of a line

All checks of a line come before the first change that it makes, so a line can be taken in two
parts.  First it is decided what the line does, which only looks at the session: this is a step, or
a fault.  Then the step is made, which cannot fail.
-/

namespace Z80

/-- What a line does that is accepted. -/
inductive Step where
  | nothing
  | bind (name value : Text)
  | load (origin : Address)
  | declare (name : Text)
  | emit (statement : Statement) (encoding : Encoding)
  deriving DecidableEq

namespace Session

/-- What a line does, or why it is refused. -/
def interpret (setup : Setup) (s : Session) (raw : Text) : Except Fault Step := do
  match ← Line.read s.bindings raw with
  | .blank => return .nothing
  | .binding name value => return .bind name value
  | .origin address => return .load address
  | .label name =>
    if (s.labels.get? name).isSome ∧ setup.settings.allowRedefinition = false then
      throw (.duplicateLabel name)
    else return .declare name
  | .statement text =>
    let statement ← Statement.read setup.table.vocabulary text
    let encoding ← Encoding.ofStatement setup.table statement
    return .emit statement encoding

/-- The session after a step of the line that was counted last. -/
def apply (s : Session) : Step → Session
  | .nothing => s
  | .bind name value => { s with bindings := s.bindings.insert name value }
  | .load origin => { s with origin := some origin }
  | .declare name => { s with labels := s.labels.insert name s.position }
  | .emit statement encoding =>
    { s with
      code := s.code.emit encoding.bytes
      references :=
        match encoding.reference with
        | some reference => s.references.record s.position reference
        | none => s.references
      listing := s.listing.push ⟨s.lines, s.position, encoding.bytes.length, statement.text⟩ }

/-- What a step of the line that was counted last reports. -/
def events (s : Session) : Step → List Event
  | .nothing => []
  | .bind name value => [.variableDefined name value]
  | .load origin => [.origin s.lines origin]
  | .declare name =>
    match s.labels.get? name with
    | none => [.label s.lines name s.position]
    | some previous =>
      [.labelRedeclared s.lines name previous s.position, .label s.lines name s.position]
  | .emit statement encoding =>
    [.statement s.lines s.position encoding.bytes statement.text]

variable {setup : Setup} {s : Session} {raw : Text}

/-- How a line comes to make a step. -/
inductive Makes (setup : Setup) (s : Session) (raw : Text) : Step → Prop
  | nothing (hline : Line.read s.bindings raw = .ok .blank) : Makes setup s raw .nothing
  | bind {name value : Text} (hline : Line.read s.bindings raw = .ok (.binding name value)) :
      Makes setup s raw (.bind name value)
  | load {address : Address} (hline : Line.read s.bindings raw = .ok (.origin address)) :
      Makes setup s raw (.load address)
  | declare {name : Text} (hline : Line.read s.bindings raw = .ok (.label name))
      (hallowed : ¬ ((s.labels.get? name).isSome ∧ setup.settings.allowRedefinition = false)) :
      Makes setup s raw (.declare name)
  | emit {text : Text} {statement : Statement} {encoding : Encoding}
      (hline : Line.read s.bindings raw = .ok (.statement text))
      (hstatement : Statement.read setup.table.vocabulary text = .ok statement)
      (hencoding : Encoding.ofStatement setup.table statement = .ok encoding) :
      Makes setup s raw (.emit statement encoding)

theorem interpret_eq_ok {step : Step} :
    s.interpret setup raw = .ok step ↔ Makes setup s raw step := by
  constructor
  · intro h
    obtain ⟨line, hline, h⟩ := bind_eq_ok.mp h
    cases line with
    | blank =>
      cases h
      exact .nothing hline
    | binding name value =>
      cases h
      exact .bind hline
    | origin address =>
      cases h
      exact .load hline
    | label name =>
      dsimp only at h
      split at h
      · cases h
      · next hallowed =>
        cases h
        exact .declare hline hallowed
    | statement text =>
      obtain ⟨statement, hstatement, h⟩ := bind_eq_ok.mp h
      obtain ⟨encoding, hencoding, h⟩ := bind_eq_ok.mp h
      cases h
      exact .emit hline hstatement hencoding
  · intro h
    cases h with
    | nothing hline => exact bind_eq_ok.mpr ⟨_, hline, rfl⟩
    | bind hline => exact bind_eq_ok.mpr ⟨_, hline, rfl⟩
    | load hline => exact bind_eq_ok.mpr ⟨_, hline, rfl⟩
    | declare hline hallowed => exact bind_eq_ok.mpr ⟨_, hline, if_neg hallowed⟩
    | emit hline hstatement hencoding =>
      refine bind_eq_ok.mpr ⟨_, hline, ?_⟩
      exact bind_eq_ok.mpr ⟨_, hstatement, bind_eq_ok.mpr ⟨_, hencoding, rfl⟩⟩

end Session

/-- The work after a step. -/
def Work.apply (w : Work) (step : Step) : Work where
  session := w.session.apply step
  reported := w.reported ++ w.session.events step

@[simp] theorem Work.apply_nothing (w : Work) : w.apply .nothing = w := by
  simp [Work.apply, Session.apply, Session.events]

/-- What is done with a line while it is read. -/
@[simp] def Line.effect : Line → Step
  | binding name value => .bind name value
  | _ => .nothing

namespace Task

open Attempt

variable {setup : Setup} {w w' : Work} {raw t : Text} {line : Line} {fault : Fault}

@[simp] theorem run_session (w : Work) : session.run w = (.ok w.session, w) := rfl

@[simp] theorem run_change (f : Session → Session) (w : Work) :
    (change f).run w = (.ok (), { w with session := f w.session }) := rfl

@[simp] theorem run_report (e : Event) (w : Work) :
    (report e).run w = (.ok (), { w with reported := w.reported ++ [e] }) := rfl

/-! ## Refused lines

No task fails after its first change. -/

theorem keeps_session : Keeps id session := fun w => by
  rw [run_session]

theorem certain_session : Certain session := fun w => ⟨_, _, run_session w⟩

theorem certain_change (f : Session → Session) : Certain (change f) :=
  fun w => ⟨_, _, run_change f w⟩

theorem certain_report (e : Event) : Certain (report e) := fun w => ⟨_, _, run_report e w⟩

theorem atomic_define (t : Text) : Atomic id (define t) := by
  unfold define
  dsimp only
  split
  · exact (Keeps.throw _).atomic
  split
  · exact (Keeps.throw _).atomic
  · exact ((certain_report _).bind fun _ => (certain_change _).bind fun _ => .pure _).atomic

theorem keeps_code (t : Text) : Keeps id (code t) :=
  keeps_session.bind fun _ => (Keeps.lift _).bind fun _ => .lift _

theorem atomic_process (raw : Text) : Atomic id (process raw) := by
  unfold process
  dsimp only
  split
  · exact (Keeps.pure _).atomic
  split
  · exact atomic_define _
  · exact (keeps_code _).atomic

theorem atomic_declare (settings : Settings) (name : Text) : Atomic id (declare settings name) := by
  refine keeps_session.atomic_bind fun s => ?_
  dsimp only
  split
  · exact (Keeps.throw _).atomic
  · refine ((certain_change _).bind fun _ => ?_).atomic
    exact (Certain.forM (fun _ => certain_report _) _).bind fun _ => certain_report _

theorem atomic_emit (table : OpcodeTable) (text : Text) : Atomic id (emit table text) := by
  refine (Keeps.lift _).atomic_bind fun statement => (Keeps.lift _).atomic_bind fun encoding => ?_
  refine (certain_session.bind fun s => certain_session.bind fun s' => ?_).atomic
  refine (certain_change _).bind fun _ => (certain_report _).bind fun _ => ?_
  exact (Certain.forM (fun _ => certain_change _) _).bind fun _ => certain_change _

theorem define_eq_ok (h : (define t).run w = (.ok line, w')) :
    ∃ name value, line = .binding name value ∧ w' = w.apply (.bind name value) := by
  unfold define at h
  dsimp only at h
  split at h
  · cases h
  split at h
  · cases h
  · cases h
    exact ⟨_, _, rfl, rfl⟩

@[simp] theorem fst_code (t : Text) (w : Work) :
    ((code t).run w).1 =
      Line.foldCase (Text.trim (w.session.bindings.substitute t)) >>= Line.ofFolded := by
  rw [code, run_bind_of_ok (run_session w)]
  cases Line.foldCase (Text.trim (w.session.bindings.substitute t)) <;> rfl

theorem code_eq_ok (h : (code t).run w = (.ok line, w')) : line.effect = .nothing ∧ w' = w := by
  refine ⟨?_, (keeps_code t).see_eq h⟩
  have hline := fst_code t w
  rw [h] at hline
  obtain ⟨folded, -, hfolded⟩ := bind_eq_ok.mp hline.symm
  cases Line.ofFolded_eq_ok.mp hfolded <;> rfl

/-- A line that is read has changed the session only if it defines a variable. -/
theorem process_eq_ok (h : (process raw).run w = (.ok line, w')) : w' = w.apply line.effect := by
  unfold process at h
  dsimp only at h
  split at h
  · cases h
    exact (Work.apply_nothing w).symm
  split at h
  · obtain ⟨name, value, rfl, rfl⟩ := define_eq_ok h
    rfl
  · obtain ⟨heffect, rfl⟩ := code_eq_ok h
    rw [heffect, Work.apply_nothing]

/-- A line that defines a variable has changed the session once it is read, but then nothing is left
that could fail; any other line has changed nothing yet. -/
theorem atomic_step (setup : Setup) (raw : Text) : Atomic id (step setup raw) := by
  refine (atomic_process raw).bind fun w line w' hline => ?_
  have hw := process_eq_ok hline
  cases line with
  | blank => exact .inl (.pure _)
  | binding name value => exact .inl (.pure _)
  | origin address =>
    exact .inl (certain_session.bind fun s => (certain_report _).bind fun _ => certain_change _)
  | label name => exact .inr ⟨hw.trans w.apply_nothing, atomic_declare _ _⟩
  | statement text => exact .inr ⟨hw.trans w.apply_nothing, atomic_emit _ _⟩

/-! ## Accepted lines -/

@[simp] theorem fst_define (t : Text) (w : Work) : ((define t).run w).1 = Line.readVariable t := by
  unfold define Line.readVariable
  dsimp only
  split
  · rfl
  split <;> rfl

/-- What the line says does not depend on anything but the variables. -/
@[simp] theorem fst_process (raw : Text) (w : Work) :
    ((process raw).run w).1 = Line.read w.session.bindings raw := by
  by_cases hnil : Text.trim (Line.stripComment raw) = []
  · rw [process, Line.read, hnil]
    rfl
  by_cases hdollar : (Text.trim (Line.stripComment raw)).head? = some '$'
  · obtain ⟨rest, hrest⟩ := List.head?_eq_some_iff.mp hdollar
    rw [process, Line.read, hrest]
    exact fst_define _ _
  · rw [process, Line.read_eq_substitute hnil hdollar, if_neg (by simpa using hnil), if_neg hdollar]
    exact fst_code _ _

theorem process_of_ok (h : Line.read w.session.bindings raw = .ok line) :
    (process raw).run w = (.ok line, w.apply line.effect) := by
  have hline := (fst_process raw w).trans h
  exact Prod.ext hline (process_eq_ok (Prod.ext hline rfl))

theorem declare_of_ok {settings : Settings} {name : Text}
    (h : ¬ ((w.session.labels.get? name).isSome ∧ settings.allowRedefinition = false)) :
    (declare settings name).run w = (.ok (), w.apply (.declare name)) := by
  rw [declare, run_bind_of_ok (run_session w)]
  dsimp only
  rw [if_neg (mt And.symm h), Work.apply, Session.events]
  cases w.session.labels.get? name with
  | none => rfl
  | some previous =>
    dsimp only
    rw [List.append_cons]
    rfl

theorem emit_of_ok {table : OpcodeTable} {text : Text} {statement : Statement} {encoding : Encoding}
    (hstatement : Statement.read table.vocabulary text = .ok statement)
    (hencoding : Encoding.ofStatement table statement = .ok encoding) :
    (emit table text).run w = (.ok (), w.apply (.emit statement encoding)) := by
  rw [emit, hstatement, run_bind_of_ok (run_lift _ w), hencoding, run_bind_of_ok (run_lift _ w),
    Work.apply, Session.apply]
  cases encoding.reference <;> rfl

/-- An accepted line makes its step. -/
theorem step_of_ok {made : Step} (h : w.session.interpret setup raw = .ok made) :
    (step setup raw).run w = (.ok (), w.apply made) := by
  rw [step]
  cases Session.interpret_eq_ok.mp h with
  | nothing hline => exact run_bind_of_ok (process_of_ok hline)
  | bind hline => exact run_bind_of_ok (process_of_ok hline)
  | load hline =>
    rw [run_bind_of_ok (process_of_ok hline)]
    simp only [Line.effect, Work.apply_nothing]
    rfl
  | declare hline hallowed =>
    rw [run_bind_of_ok (process_of_ok hline)]
    simp only [Line.effect, Work.apply_nothing]
    exact declare_of_ok hallowed
  | emit hline hstatement hencoding =>
    rw [run_bind_of_ok (process_of_ok hline)]
    simp only [Line.effect, Work.apply_nothing]
    exact emit_of_ok hstatement hencoding

theorem fst_declare_of_duplicate {settings : Settings} {name : Text}
    (h : (w.session.labels.get? name).isSome ∧ settings.allowRedefinition = false) :
    ((declare settings name).run w).1 = .error (.duplicateLabel name) := by
  rw [declare, run_bind_of_ok (run_session w)]
  dsimp only
  rw [if_pos h.symm]
  rfl

theorem fst_emit_of_error {table : OpcodeTable} {text : Text}
    (h : Statement.read table.vocabulary text >>= Encoding.ofStatement table = .error fault) :
    ((emit table text).run w).1 = .error fault := by
  rw [emit]
  cases hstatement : Statement.read table.vocabulary text with
  | error fault' =>
    rw [hstatement] at h
    cases h
    rfl
  | ok statement =>
    rw [hstatement] at h
    change Encoding.ofStatement table statement = _ at h
    rw [run_bind_of_ok (run_lift _ w), h]
    rfl

theorem fst_step_of_error (h : w.session.interpret setup raw = .error fault) :
    ((step setup raw).run w).1 = .error fault := by
  rw [Session.interpret] at h
  cases hread : Line.read w.session.bindings raw with
  | error fault' =>
    rw [hread] at h
    cases h
    rw [step, run_bind_of_error (Prod.ext ((fst_process raw w).trans hread) rfl)]
  | ok line =>
    rw [hread] at h
    rw [step, run_bind_of_ok (process_of_ok hread)]
    cases line with
    | label name =>
      simp only [Line.effect, Work.apply_nothing]
      change (if _ then _ else _) = _ at h
      split at h
      · next hduplicate =>
        cases h
        exact fst_declare_of_duplicate hduplicate
      · cases h
    | statement text =>
      simp only [Line.effect, Work.apply_nothing]
      refine fst_emit_of_error ?_
      dsimp only [Bind.bind, Except.bind] at h ⊢
      split at h
      · cases h
        rfl
      split at h
      · next hencoding =>
        cases h
        exact hencoding
      · cases h
    | _ => cases h

/-- A refused line does nothing. -/
theorem step_of_error (h : w.session.interpret setup raw = .error fault) :
    (step setup raw).run w = (.error fault, w) := by
  have hfault := fst_step_of_error h
  exact Prod.ext hfault (atomic_step setup raw w fault _ (Prod.ext hfault rfl))

end Task

/-! ## Sessions -/

namespace Session

variable {setup : Setup} {s : Session} {raw : Text} {made : Step} {fault : Fault}

theorem take_of_ok (h : s.interpret setup raw = .ok made) :
    s.take setup raw = (.ok (), ⟨s.count.apply made, s.count.events made⟩) :=
  Task.step_of_ok (w := ⟨s.count, []⟩) h

theorem take_of_error (h : s.interpret setup raw = .error fault) :
    s.take setup raw = (.error fault, ⟨s.count, []⟩) :=
  Task.step_of_error (w := ⟨s.count, []⟩) h

theorem push_of_ok (h : s.interpret setup raw = .ok made) :
    s.push setup raw = (s.count.apply made, .ok (s.count.events made)) := by
  rw [push, take_of_ok h]

theorem push_of_error (h : s.interpret setup raw = .error fault) :
    s.push setup raw = (s.count, .error (.line (s.lines + 1) fault)) := by
  rw [push, take_of_error h]

theorem push_eq_error {failure : Failure} (h : (s.push setup raw).2 = .error failure) :
    ∃ fault, s.interpret setup raw = .error fault ∧ failure = .line (s.lines + 1) fault := by
  cases hstep : s.interpret setup raw with
  | error fault =>
    rw [push_of_error hstep] at h
    cases h
    exact ⟨fault, rfl, rfl⟩
  | ok made =>
    rw [push_of_ok hstep] at h
    cases h

theorem run_cons_of_ok (h : s.interpret setup raw = .ok made) (rest : List Text) :
    s.run setup (raw :: rest) =
      (s.count.events made ++ ((s.count.apply made).run setup rest).1,
        ((s.count.apply made).run setup rest).2) := by
  rw [run, take_of_ok h]

theorem run_cons_of_error (h : s.interpret setup raw = .error fault) (rest : List Text) :
    s.run setup (raw :: rest) = ([], .error (.line (s.lines + 1) fault)) := by
  rw [run, take_of_error h]

end Session

end Z80
