import Z80.Assembly
import Z80.Line
import Z80.Resolution

/-!
# Sessions

A session takes source lines one at a time.  What a line does to the session and what it reports is
done step by step, and any step may refuse the line; after the last line the labels are resolved.
-/

namespace Z80

/-- The origin of code whose source sets none, and whether a label may be declared again. -/
structure Settings where
  origin : Option Address := none
  allowRedefinition : Bool := true
  deriving DecidableEq

/-- An instruction set and the settings of a run. -/
structure Setup where
  table : OpcodeTable
  settings : Settings

/-- What the lines so far amount to. -/
structure Session where
  bindings : Variables
  labels : Labels
  references : References
  code : CodeBuffer
  origin : Option Address
  listing : Array Entry
  lines : Nat
  deriving DecidableEq

namespace Session

def start : Session where
  bindings := .empty
  labels := .empty
  references := .empty
  code := .empty
  origin := none
  listing := #[]
  lines := 0

/-- The position of the next statement. -/
def position (s : Session) : Nat := s.code.size

/-- Counts a line. -/
def count (s : Session) : Session := { s with lines := s.lines + 1 }

end Session

/-! ## Lines -/

/-- A session at work on a line, and what it has reported of the line so far. -/
structure Work where
  session : Session
  reported : List Event
  deriving DecidableEq

/-- What is done for a line.  It may be refused at any point, and what was done up to there
stays. -/
abbrev Task := ExceptT Fault (StateM Work)

namespace Task

def session : Task Session := return (← get).session

def change (f : Session → Session) : Task Unit := modify fun w => { w with session := f w.session }

def report (e : Event) : Task Unit := modify fun w => { w with reported := w.reported ++ [e] }

/-- A line that starts with a dollar sign defines a variable. -/
def define (t : Text) : Task Line := do
  let (name, value) := Text.splitHead t
  if name.length = 1 then throw (.malformedDirective (.variableNameMissing t))
  else if value.isEmpty then throw (.malformedDirective (.variableValueMissing name))
  else
    report (.variableDefined name value)
    change fun s => { s with bindings := s.bindings.insert name value }
    return .binding name value

/-- What a line says that defines no variable. -/
def code (t : Text) : Task Line := do
  let s ← session
  let folded ← Line.foldCase (Text.trim (s.bindings.substitute t))
  Line.ofFolded folded

/-- What the line says.  A variable that it defines is known from here on. -/
def process (raw : Text) : Task Line :=
  let t := Text.trim (Line.stripComment raw)
  if t.isEmpty then return .blank
  else if t.head? = some '$' then define t
  else code t

/-- Declares a label at the position of the next statement. -/
def declare (settings : Settings) (name : Text) : Task Unit := do
  let s ← session
  let previous? := s.labels.get? name
  if settings.allowRedefinition = false ∧ previous?.isSome then throw (.duplicateLabel name)
  else
    change fun s => { s with labels := s.labels.insert name s.position }
    previous?.forM fun previous => report (.labelRedeclared s.lines name previous s.position)
    report (.label s.lines name s.position)

/-- Appends the code of a statement. -/
def emit (table : OpcodeTable) (text : Text) : Task Unit := do
  let statement ← Statement.read table.vocabulary text
  let encoding ← Encoding.ofStatement table statement
  let line := (← session).lines
  let site := (← session).position
  change fun s => { s with code := s.code.emit encoding.bytes }
  report (.statement line site encoding.bytes statement.text)
  encoding.reference.forM fun reference =>
    change fun s => { s with references := s.references.record site reference }
  change fun s =>
    { s with listing := s.listing.push ⟨line, site, encoding.bytes.length, statement.text⟩ }

/-- Takes the line that was counted last. -/
def step (setup : Setup) (raw : Text) : Task Unit := do
  match ← process raw with
  | .blank | .binding _ _ => return ()
  | .origin address =>
    report (.origin (← session).lines address)
    change fun s => { s with origin := some address }
  | .label name => declare setup.settings name
  | .statement text => emit setup.table text

end Task

namespace Session

/-- Counts a line and takes it. -/
def take (setup : Setup) (s : Session) (raw : Text) : Except Fault Unit × Work :=
  (Task.step setup raw).run ⟨s.count, []⟩

/-- The session after a line, and the events of the line or its failure. -/
def push (setup : Setup) (s : Session) (raw : Text) : Session × Except Failure (List Event) :=
  let line := s.lines + 1
  match s.take setup raw with
  | (.error fault, w) => (w.session, .error (.line line fault))
  | (.ok (), w) => (w.session, .ok w.reported)

/-! ## The end -/

/-- The origin that the source sets, or else the one of the settings. -/
def effectiveOrigin (settings : Settings) (s : Session) : Option Address :=
  s.origin.or settings.origin

/-- Resolves the labels. -/
def finish (setup : Setup) (s : Session) : List Event × Except Failure Assembly :=
  let origin := s.effectiveOrigin setup.settings
  let resolution := s.references.resolve s.labels origin s.code
  match resolution.outcome with
  | .error fault => (resolution.events, .error (.resolution fault))
  | .ok patched =>
    (resolution.events ++ [.finished resolution.code.size s.labels.size patched],
      .ok ⟨resolution.code, origin, s.labels, s.listing.toList⟩)

/-! ## Whole sources -/

/-- Takes lines up to the first failure, and finishes if there is none. -/
def run (setup : Setup) (s : Session) : List Text → List Event × Except Failure Assembly
  | [] => s.finish setup
  | raw :: rest =>
    let line := s.lines + 1
    match s.take setup raw with
    | (.error fault, w) => (w.reported, .error (.line line fault))
    | (.ok (), w) =>
      let later := run setup w.session rest
      (w.reported ++ later.1, later.2)

/-- Takes every line, also after a failure: the session afterwards, and for each line the position
after it with its failure. -/
def replay (setup : Setup) (s : Session) : List Text → Session × List (Nat × Option Failure)
  | [] => (s, [])
  | raw :: rest =>
    match s.push setup raw with
    | (after, result) =>
      let later := replay setup after rest
      (later.1, (after.position, match result with
        | .ok _ => none
        | .error failure => some failure) :: later.2)

end Session

/-- The events and the result of a source. -/
def trace (setup : Setup) (source : Text) : List Event × Except Failure Assembly :=
  Session.start.run setup source.lines

/-- The result of a source. -/
def assemble (setup : Setup) (source : Text) : Except Failure Assembly := (trace setup source).2

end Z80
