import Z80.Vocabulary

/-!
# Statements

A statement is a mnemonic and its operands.  Its canonical text spells the operands with a comma
between neighbours and is what tables are looked up by, listings show, and faults name.
-/

namespace Z80

/-- An operand of a statement.  A label is held without its colon, and what stands in parentheses
without them. -/
inductive Operand where
  | register (name : Text)
  | condition (name : Text)
  | indirect (register : Text)
  | direct (address : Text)
  | immediate (value : Text)
  | label (name : Text)
  | text (content : Text)
  deriving DecidableEq

structure Statement where
  mnemonic : Text
  operands : List Operand
  deriving DecidableEq

namespace Operand

/-- The text between a parenthesis at the start and one at the end. -/
def parenthesized? : Text → Option Text
  | '(' :: rest => if rest.getLast? = some ')' then some rest.dropLast else none
  | _ => none

/-- An operand without blanks around it.  A name that is a register and a condition is a
register. -/
def ofTrimmed (v : Vocabulary) (t : Text) : Except Fault Operand :=
  match t with
  | ':' :: rest =>
    let name := Text.trim rest
    if name.isEmpty then .error .emptyLabel
    else if ':' ∈ name then .error (.misplacedLabel t)
    else .ok (label name)
  | '"' :: _ => .ok (immediate t)
  | _ =>
    if ':' ∈ t then .error (.misplacedLabel t)
    else
      match parenthesized? t with
      | some inner =>
        let inner := Text.trim inner
        .ok (if v.isRegister inner then indirect inner else direct inner)
      | none =>
        .ok (if v.isRegister t then register t
          else if v.isCondition t then condition t
          else immediate t)

/-- Tells apart what one piece of a statement stands for. -/
def read (v : Vocabulary) (piece : Text) : Except Fault Operand := ofTrimmed v (Text.trim piece)

/-- The canonical spelling. -/
def spell : Operand → Text
  | register name => name
  | condition name => name
  | indirect name => '(' :: name ++ [')']
  | direct address => '(' :: address ++ [')']
  | immediate value => value
  | label name => ':' :: name
  | text content => content

/-- Whether the operand is a number that follows the opcode. -/
def isNumeric : Operand → Bool
  | direct _ => true
  | immediate _ => true
  | label _ => true
  | _ => false

/-- The literal of a number that is written out. -/
def literal? : Operand → Option Text
  | direct address => some address
  | immediate value => some value
  | _ => none

/-- The spelling with a star for the number. -/
def star : Operand → Text
  | direct _ => "(*)".toList
  | immediate _ => "*".toList
  | label _ => "*".toList
  | other => other.spell

end Operand

namespace Statement

/-- The mnemonic, and after a space the operands, each spelled by `spell`. -/
def join (s : Statement) (spell : Operand → Text) : Text :=
  if s.operands.isEmpty then s.mnemonic
  else s.mnemonic ++ ' ' :: List.intercalate [','] (s.operands.map spell)

/-- The canonical text. -/
def text (s : Statement) : Text := s.join Operand.spell

/-- The only number among the operands, and the text with a star for it. -/
def starred? (s : Statement) : Option (Text × Operand) :=
  match s.operands.filter Operand.isNumeric with
  | [operand] => some (s.join Operand.star, operand)
  | _ => none

/-- Reads the pieces between commas; none of them may be blank. -/
def readOperands (v : Vocabulary) (t rest : Text) : Except Fault (List Operand) :=
  let pieces := Text.splitOutside ',' rest
  if pieces.any fun piece => (Text.trim piece).isEmpty then .error (.unrecognizedInstruction t)
  else pieces.mapM (Operand.read v)

/-- Reads a statement.  Everything after `defm` is one operand. -/
def read (v : Vocabulary) (line : Text) : Except Fault Statement :=
  let t := Text.trim line
  let (mnemonic, rest) := Text.splitHead t
  if rest.isEmpty then .ok ⟨mnemonic, []⟩
  else if mnemonic = "defm".toList then .ok ⟨mnemonic, [.text rest]⟩
  else (readOperands v t rest).map fun operands => ⟨mnemonic, operands⟩

end Statement

end Z80
