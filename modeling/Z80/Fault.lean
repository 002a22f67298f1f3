import Z80.Numeral

/-!
# Faults

Why a source line or the resolution of labels fails, and the wording of it.
-/

namespace Z80

/-- What is wrong with a directive. -/
inductive Malformation where
  | variableNameMissing (line : Text)
  | variableValueMissing (name : Text)
  | originArity (line : Text)
  | noValues (statement : Text)
  | noText (statement : Text)
  deriving DecidableEq

/-- Why something cannot be assembled. -/
inductive Fault where
  | malformedDirective (problem : Malformation)
  | unresolvedLabel (name : Text)
  | duplicateLabel (name : Text)
  | emptyLabel
  | missingOrigin (label : Text)
  | offsetOutOfRange (label : Text) (offset : Int)
  | unrecognizedInstruction (text : Text)
  | invalidLiteral (text : Text)
  | valueOutOfRange (value : Int) (bits : Nat)
  | unterminatedQuote
  | multipleQuotes
  | misplacedLabel (text : Text)
  | patchOutOfBounds (position length : Nat)
  deriving DecidableEq

/-- A fault with the place it arose at: a source line, counted from one, or the resolution of labels
after the last line. -/
inductive Failure where
  | line (number : Nat) (fault : Fault)
  | resolution (fault : Fault)
  deriving DecidableEq

/-- A text between backticks. -/
def ticked (t : Text) : Text := "`".toList ++ t ++ "`".toList

def Malformation.message : Malformation → Text
  | variableNameMissing line => "variable name missing in ".toList ++ ticked line
  | variableValueMissing name => "variable ".toList ++ ticked name ++ " has no value".toList
  | originArity line => ticked line ++ ": org takes exactly one address".toList
  | noValues statement => ticked statement ++ " needs at least one value".toList
  | noText statement => ticked statement ++ " needs some text".toList

def Fault.message : Fault → Text
  | malformedDirective problem => "malformed directive: ".toList ++ problem.message
  | unresolvedLabel name => "unresolved label ".toList ++ ticked name
  | duplicateLabel name => "label ".toList ++ ticked name ++ " declared twice".toList
  | emptyLabel => "empty label declaration".toList
  | missingOrigin label =>
    "org must be set before absolute references can be resolved (first use: ".toList ++
      ticked label ++ ")".toList
  | offsetOutOfRange label offset =>
    "relative jump to ".toList ++ ticked label ++ " is ".toList ++ Numeral.signedDecimal offset ++
      " bytes away, outside [-128, 127]".toList
  | unrecognizedInstruction text => "unrecognized instruction ".toList ++ ticked text
  | invalidLiteral text => "invalid literal ".toList ++ ticked text
  | valueOutOfRange value bits =>
    "value ".toList ++ Numeral.signedDecimal value ++ " does not fit in ".toList ++
      Numeral.decimal bits ++ " bits".toList
  | unterminatedQuote => "unterminated string quote".toList
  | multipleQuotes => "only one quoted string is allowed per line".toList
  | misplacedLabel text =>
    "misplaced label reference in ".toList ++ ticked text ++
      ": only the last operand of call/jp/jr/djnz may name a label".toList
  | patchOutOfBounds position length =>
    "patch at 0x".toList ++ Numeral.hex 4 position ++ " is outside the ".toList ++
      Numeral.decimal length ++ "-byte code buffer".toList

namespace Failure

def fault : Failure → Fault
  | line _ f => f
  | resolution f => f

/-- The number of the failing line, if the failure has one. -/
def line? : Failure → Option Nat
  | line n _ => some n
  | resolution _ => none

def message : Failure → Text
  | line n f => "line ".toList ++ Numeral.decimal n ++ ": ".toList ++ f.message
  | resolution f => "label resolution failed: ".toList ++ f.message

end Failure

end Z80
