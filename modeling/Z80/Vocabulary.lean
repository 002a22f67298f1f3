import Z80.Word

/-!
# Vocabularies

The words of an instruction set that operands are told apart by, and the mnemonics whose last
operand may name a label.
-/

namespace Z80

/-- How a jump holds its target: as an address in a word, or as the distance in a byte. -/
inductive Jump where
  | absolute
  | relative
  deriving DecidableEq

def Jump.width : Jump → Width
  | absolute => .word
  | relative => .byte

structure Vocabulary where
  registers : List Text
  conditions : List Text
  absoluteJumps : List Text
  relativeJumps : List Text

namespace Vocabulary

def isRegister (v : Vocabulary) (t : Text) : Bool := v.registers.contains t

def isCondition (v : Vocabulary) (t : Text) : Bool := v.conditions.contains t

def jump? (v : Vocabulary) (mnemonic : Text) : Option Jump :=
  if v.absoluteJumps.contains mnemonic then some .absolute
  else if v.relativeJumps.contains mnemonic then some .relative
  else none

end Vocabulary

end Z80
