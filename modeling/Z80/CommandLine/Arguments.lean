import Z80.CommandLine.Styled

/-!
# Arguments

The arguments of a program are one source and any number of switches, before or after it.  A switch
is a flag, or it takes a value: `--name value`, `--name=value`, `-n value` or `-nvalue`.  After `--`
there are no switches.

A value that stands alone is only checked once the next argument has turned out to be a known one,
so an unknown argument is reported before a bad value in front of it.
-/

namespace Z80.CommandLine

/-- Why a program refuses its arguments. -/
inductive UsageError where
  | unexpectedArgument (argument : Text)
  | unexpectedValue (value argument : Text)
  | missingValue (argument : Text)
  | repeated (argument : Text)
  | invalidValue (value argument : Text) (reason : Option Text)
  | missingSource
  deriving DecidableEq

/-- Why a value is refused: there is nothing in it, or it is wrong. -/
inductive Rejection where
  | absent
  | invalid (reason : Option Text)

/-- A switch with a value, in messages called by `argument`. -/
structure Parameter (σ : Type) where
  argument : Text
  isGiven : σ → Bool
  set : σ → Text → Except Rejection σ

/-- What a switch does to the options `σ`. -/
inductive Effect (σ : Type) where
  | flag (isGiven : σ → Bool) (set : σ → σ)
  | value (parameter : Parameter σ)
  | help
  | version

structure Switch (σ : Type) where
  long : Text
  short : Option Char
  effect : Effect σ
  meaning : Text

def Switch.help {σ : Type} : Switch σ := ⟨"help".toList, some 'h', .help, "Print help".toList⟩

def Switch.version {σ : Type} : Switch σ :=
  ⟨"version".toList, some 'V', .version, "Print version".toList⟩

/-- The arguments that a program takes. -/
structure Interface (σ : Type) where
  program : Text
  purpose : Text
  sourceMeaning : Text
  emptySource : Bool
  defaults : σ
  switches : List (Switch σ)

/-- What the arguments ask for. -/
inductive Request (σ : Type) where
  | run (source : Text) (options : σ)
  | help
  | version

/-- An argument that has not been checked: a parameter without a value or with one, or the
source. -/
inductive Pending (σ : Type) where
  | nothing
  | awaiting (parameter : Parameter σ)
  | given (parameter : Parameter σ) (value : Text)
  | source (name : Text)

/-- What the arguments so far amount to. -/
structure Progress (σ : Type) where
  options : σ
  source : Option Text
  pending : Pending σ
  onlySources : Bool

/-- Why reading arguments ends before the last one. -/
inductive Stop where
  | error (e : UsageError)
  | help
  | version

/-- What a refusal says.  What stands in quotes is a span of its own; the reason is not. -/
def UsageError.message : UsageError → Styled
  | unexpectedArgument argument =>
    ["unexpected argument '".toList, argument, "' found".toList]
  | unexpectedValue value argument =>
    ["unexpected value '".toList, value, "' for '".toList, argument,
      "' found; no more were expected".toList]
  | missingValue argument =>
    ["a value is required for '".toList, argument, "' but none was supplied".toList]
  | repeated argument =>
    ["the argument '".toList, argument, "' cannot be used multiple times".toList]
  | invalidValue value argument reason =>
    ["invalid value '".toList, value, "' for '".toList, argument,
      "'".toList ++
        match reason with
        | some reason => ": ".toList ++ reason
        | none => []]
  | missingSource =>
    ["the following required arguments were not provided:\n  <SOURCE>".toList]

variable {σ : Type}

/-- Gives a parameter its value. -/
def Parameter.assign (p : Parameter σ) (options : σ) (value : Text) : Except UsageError σ :=
  if p.isGiven options then .error (.repeated p.argument)
  else
    match p.set options value with
    | .ok options => .ok options
    | .error .absent => .error (.missingValue p.argument)
    | .error (.invalid reason) => .error (.invalidValue value p.argument reason)

namespace Progress

/-- Checks the pending argument. -/
def settle (interface : Interface σ) (p : Progress σ) : Except Stop (Progress σ) :=
  match p.pending with
  | .nothing => .ok p
  | .awaiting parameter => .error (.error (.missingValue parameter.argument))
  | .given parameter value =>
    match parameter.assign p.options value with
    | .ok options => .ok { p with options := options, pending := .nothing }
    | .error e => .error (.error e)
  | .source name =>
    if name.isEmpty && !interface.emptySource then
      .error (.error (.missingValue "<SOURCE>".toList))
    else .ok { p with source := some name, pending := .nothing }

/-- Takes a switch with the value that is attached to it. -/
def takeSwitch (interface : Interface σ) (p : Progress σ) (s : Switch σ) (attached : Option Text) :
    Except Stop (Progress σ) :=
  match s.effect, attached with
  | .value parameter, some value =>
    match p.settle interface with
    | .error stop => .error stop
    | .ok p =>
      match parameter.assign p.options value with
      | .ok options => .ok { p with options := options }
      | .error e => .error (.error e)
  | .value parameter, none =>
    (p.settle interface).map fun p => { p with pending := .awaiting parameter }
  | _, some value => .error (.error (.unexpectedValue value ("--".toList ++ s.long)))
  | .flag isGiven set, none =>
    match p.settle interface with
    | .error stop => .error stop
    | .ok p =>
      if isGiven p.options then .error (.error (.repeated ("--".toList ++ s.long)))
      else .ok { p with options := set p.options }
  | .help, none => (p.settle interface).bind fun _ => .error .help
  | .version, none => (p.settle interface).bind fun _ => .error .version

/-- Takes switches by their letters.  What follows the letter of a parameter is its value. -/
def takeLetters (interface : Interface σ) (p : Progress σ) : Text → Except Stop (Progress σ)
  | [] => .ok p
  | c :: rest =>
    match interface.switches.find? (·.short == some c) with
    | none => .error (.error (.unexpectedArgument ['-', c]))
    | some s =>
      match s.effect, rest with
      | .value _, [] => p.takeSwitch interface s none
      | .value _, '=' :: value => p.takeSwitch interface s (some value)
      | .value _, value => p.takeSwitch interface s (some value)
      | _, _ => (p.takeSwitch interface s none).bind fun p => takeLetters interface p rest

/-- Takes a switch by its name, and the value after an equals sign. -/
def takeName (interface : Interface σ) (p : Progress σ) (t : Text) : Except Stop (Progress σ) :=
  let name := t.takeWhile (· != '=')
  match interface.switches.find? (·.long == name) with
  | none => .error (.error (.unexpectedArgument ("--".toList ++ name)))
  | some s => p.takeSwitch interface s (t.dropWhile (· != '=')).tail?

/-- Takes an argument that is no switch and no value. -/
def takeSource (interface : Interface σ) (p : Progress σ) (name : Text) :
    Except Stop (Progress σ) :=
  match p.source, p.pending with
  | none, .source _ => .error (.error (.unexpectedArgument name))
  | none, _ => (p.settle interface).map fun p => { p with pending := .source name }
  | some _, _ => .error (.error (.unexpectedArgument name))

/-- Takes one argument. -/
def take (interface : Interface σ) (p : Progress σ) (argument : Text) :
    Except Stop (Progress σ) :=
  if p.onlySources then p.takeSource interface argument
  else
    match argument, p.pending with
    | ['-', '-'], _ => .ok { p with onlySources := true }
    | '-' :: '-' :: rest, _ => p.takeName interface rest
    | '-' :: c :: rest, _ => p.takeLetters interface (c :: rest)
    | _, .awaiting parameter => .ok { p with pending := .given parameter argument }
    | _, _ => p.takeSource interface argument

end Progress

/-- What the arguments ask for, up to the first that cannot be taken. -/
def Interface.read (interface : Interface σ) (arguments : List Text) :
    Except UsageError (Request σ) :=
  let progress : Progress σ := ⟨interface.defaults, none, .nothing, false⟩
  match (arguments.foldlM (Progress.take interface) progress).bind (·.settle interface) with
  | .error (.error e) => .error e
  | .error .help => .ok .help
  | .error .version => .ok .version
  | .ok p =>
    match p.source with
    | some name => .ok (.run name p.options)
    | none => .error .missingSource

end Z80.CommandLine
