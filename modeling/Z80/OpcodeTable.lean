import Z80.Vocabulary

/-!
# Opcode tables

A table knows statements by their text.  A fixed entry spells every operand, as in `ld a,b`; a rule
has a star for its one number, as in `ld a,*` or `ld (*),hl`.
-/

namespace Z80

/-- The bytes before a number, and the size of the number. -/
structure Rule where
  lead : List UInt8
  width : Width
  deriving DecidableEq

/-- Entries and rules, of which the first with a given key counts. -/
structure OpcodeTable where
  vocabulary : Vocabulary
  fixed : List (Text × List UInt8)
  rules : List (Text × Rule)

namespace OpcodeTable

def fixed? (table : OpcodeTable) (key : Text) : Option (List UInt8) := table.fixed.lookup key

def rule? (table : OpcodeTable) (key : Text) : Option Rule := table.rules.lookup key

/-- Adds a fixed entry in front of those that are there. -/
def insertFixed (table : OpcodeTable) (key : Text) (bytes : List UInt8) : OpcodeTable :=
  { table with fixed := (key, bytes) :: table.fixed }

/-- Adds a rule in front of those that are there. -/
def insertRule (table : OpcodeTable) (key : Text) (rule : Rule) : OpcodeTable :=
  { table with rules := (key, rule) :: table.rules }

/-- The number of keys of entries and of rules. -/
def size (table : OpcodeTable) : Nat :=
  (table.fixed.map (·.1)).eraseDups.length + (table.rules.map (·.1)).eraseDups.length

end OpcodeTable

end Z80
