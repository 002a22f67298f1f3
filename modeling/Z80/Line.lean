import Z80.Dictionary
import Z80.Literal
import Z80.Word

/-!
# Source lines

A line is read in this order: the comment goes, a definition of a variable is set apart, variables
are replaced by their values, letter case is folded, and what is left is a label, an origin or a
statement.
-/

namespace Z80

/-- What a source line says. -/
inductive Line where
  | blank
  | binding (name value : Text)
  | origin (address : Address)
  | label (name : Text)
  | statement (text : Text)
  deriving DecidableEq

/-- The values of the variables defined so far.  A name includes the dollar sign. -/
abbrev Variables := Dictionary Text

/-! ## Variables -/

namespace Variables

/-- The longer of two names, each with its value; of equal ones the first. -/
def longer (best : Option (Text × Text)) (entry : Text × Text) : Option (Text × Text) :=
  match best with
  | none => some entry
  | some e => if e.1.length < entry.1.length then some entry else some e

/-- The longest name that the text starts with, and its value. -/
def longest? (vars : Variables) (t : Text) : Option (Text × Text) :=
  (vars.entries.filter fun e => e.1.isPrefixOf t).foldl longer none

/-- Replaces variables in what follows the next `skip` characters. -/
def substituteFrom (vars : Variables) : Nat → Text → Text
  | _, [] => []
  | skip + 1, _ :: rest => substituteFrom vars skip rest
  | 0, c :: rest =>
    if c = '$' then
      match longest? vars (c :: rest) with
      | some (name, value) => value ++ substituteFrom vars (name.length - 1) rest
      | none => c :: substituteFrom vars 0 rest
    else c :: substituteFrom vars 0 rest

/-- Replaces each variable by its value, from left to right, the longest name first.  A value that
was put in is not looked at again. -/
def substitute (vars : Variables) (t : Text) : Text := substituteFrom vars 0 t

end Variables

namespace Line

/-! ## Comments and letter case -/

/-- The line up to its first unquoted semicolon. -/
def stripComment (t : Text) : Text := Text.beforeOutside ';' t

/-- The line in lower case, except inside its quotes: it may hold one quoted part.  Of a `defm` line
only the keyword is folded. -/
def foldCase (t : Text) : Except Fault Text :=
  match Text.afterKeyword? "defm".toList t with
  | some rest => .ok ("defm".toList ++ rest)
  | none =>
    match t.dropWhile (· != '"') with
    | [] => .ok (Text.lower t)
    | _ :: rest =>
      match rest.dropWhile (· != '"') with
      | [] => .error .unterminatedQuote
      | _ :: after =>
        if '"' ∈ after then .error .multipleQuotes
        else
          .ok (Text.lower (t.takeWhile (· != '"')) ++ '"' :: rest.takeWhile (· != '"') ++
            '"' :: Text.lower after)

/-! ## Reading -/

/-- A line that starts with a dollar sign defines a variable. -/
def readVariable (t : Text) : Except Fault Line :=
  let (name, value) := Text.splitHead t
  if name.length = 1 then .error (.malformedDirective (.variableNameMissing t))
  else if value.isEmpty then .error (.malformedDirective (.variableValueMissing name))
  else .ok (.binding name value)

/-- What follows the keyword `org` in the line `t` is one address. -/
def readOrigin (t rest : Text) : Except Fault Line :=
  let operand := Text.trim rest
  if operand.isEmpty || operand.any Text.isBlank then
    .error (.malformedDirective (.originArity t))
  else
    match Literal.read operand with
    | .error fault => .error fault
    | .ok value =>
      match address? value with
      | some address => .ok (.origin address)
      | none => .error (.valueOutOfRange value 16)

/-- What a folded line says. -/
def ofFolded (t : Text) : Except Fault Line :=
  match t with
  | ':' :: rest =>
    let name := Text.trim rest
    if name.isEmpty then .error .emptyLabel else .ok (.label name)
  | _ =>
    match Text.afterKeyword? "org".toList t with
    | some rest => readOrigin t rest
    | none => .ok (.statement t)

/-- What a source line says, given the variables defined before it. -/
def read (vars : Variables) (raw : Text) : Except Fault Line :=
  let t := Text.trim (stripComment raw)
  match t with
  | [] => .ok .blank
  | '$' :: _ => readVariable t
  | _ =>
    match foldCase (Text.trim (vars.substitute t)) with
    | .error fault => .error fault
    | .ok folded => ofFolded folded

/-- The variables after a line. -/
def define (vars : Variables) : Line → Variables
  | binding name value => vars.insert name value
  | _ => vars

end Line

end Z80
