import Z80.OpcodeTable
import Z80.Statement
import Z80.Literal

/-!
# Encodings

The machine code of one statement.  A label stands for a number that is not known yet: its bytes are
zero, and the encoding says which label goes there.
-/

namespace Z80

/-- What kind of statement some bytes come from. -/
inductive Form where
  | fixed
  | data
  | numbered (lead : Nat) (width : Width)
  deriving DecidableEq

/-- A label whose value belongs into the code, and how. -/
structure Reference where
  label : Text
  jump : Jump
  deriving DecidableEq

structure Encoding where
  bytes : List UInt8
  form : Form
  reference : Option Reference
  deriving DecidableEq

namespace Encoding

/-- The label that the operands name.  Only the last operand may be one. -/
def labelOf (s : Statement) : List Operand → Except Fault (Option Text)
  | [] => .ok none
  | [.label name] => .ok (some name)
  | .label _ :: _ :: _ => .error (.misplacedLabel s.text)
  | _ :: rest => labelOf s rest

/-- The reference that a statement makes.  Only jumps may name a label, and a mnemonic never holds
one. -/
def referenceOf (v : Vocabulary) (s : Statement) : Except Fault (Option Reference) :=
  if ':' ∈ s.mnemonic then .error (.misplacedLabel s.text)
  else
    match labelOf s s.operands with
    | .error fault => .error fault
    | .ok none => .ok none
    | .ok (some label) =>
      match v.jump? s.mnemonic with
      | some jump => .ok (some ⟨label, jump⟩)
      | none => .error (.misplacedLabel s.text)

/-- The value of a number among the operands.  That of a label is not known yet. -/
def valueOf (operand : Operand) : Except Fault Int :=
  match operand.literal? with
  | some literal => Literal.read literal
  | none => .ok 0

/-- An instruction is known by its text, or by its text with a star for its only number. -/
def instruction (table : OpcodeTable) (s : Statement) : Except Fault Encoding :=
  match table.fixed? s.text with
  | some bytes => .ok ⟨bytes, .fixed, none⟩
  | none =>
    match s.starred?.bind fun key => (table.rule? key.1).map fun rule => (rule, key.2) with
    | none => .error (.unrecognizedInstruction s.text)
    | some (rule, operand) => do
      let value ← valueOf operand
      let number ← rule.width.encode value
      return ⟨rule.lead ++ number, .numbered rule.lead.length rule.width, none⟩

/-- The byte of one value of a `defb` statement. -/
def dataByte : Operand → Except Fault (List UInt8)
  | .immediate value => do Width.byte.encode (← Literal.read value)
  | other => .error (.invalidLiteral other.spell)

/-- A `defb` statement lists its bytes. -/
def dataBytes (s : Statement) : Except Fault Encoding :=
  if s.operands.isEmpty then .error (.malformedDirective (.noValues s.text))
  else do
    let bytes ← s.operands.mapM dataByte
    return ⟨bytes.flatten, .data, none⟩

/-- The text of a `defm` statement, without quotes around it. -/
def messageOf (s : Statement) : Text :=
  match s.operands with
  | [.text content] => (Text.unquote? content).getD content
  | _ => []

/-- A `defm` statement gives its bytes as text. -/
def dataText (s : Statement) : Except Fault Encoding :=
  if (messageOf s).isEmpty then .error (.malformedDirective (.noText s.text))
  else .ok ⟨(messageOf s).utf8, .data, none⟩

/-- The bytes of a statement, with zero for a label. -/
def placeholder (table : OpcodeTable) (s : Statement) : Except Fault Encoding :=
  if s.mnemonic = "defb".toList then dataBytes s
  else if s.mnemonic = "defm".toList then dataText s
  else instruction table s

/-- The machine code of a statement.  The value of a label is written after an opcode of one byte,
so a statement that names a label has to have that form. -/
def ofStatement (table : OpcodeTable) (s : Statement) : Except Fault Encoding := do
  let reference? ← referenceOf table.vocabulary s
  let encoding ← placeholder table s
  match reference? with
  | none => return encoding
  | some reference =>
    if encoding.form = .numbered 1 reference.jump.width then
      return { encoding with reference := some reference }
    else throw (.misplacedLabel s.text)

end Encoding

end Z80
