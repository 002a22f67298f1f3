import Z80.CodeBuffer
import Z80.Dictionary
import Z80.Word

/-!
# Assemblies

The result of a run: the code, where it is loaded, the positions of the labels, and which statement
each part of the code comes from.
-/

namespace Z80

/-- The place of one statement: its line in the source, its position and length in the code, and its
canonical text. -/
structure Entry where
  line : Nat
  position : Nat
  length : Nat
  text : Text
  deriving DecidableEq

structure Assembly where
  code : CodeBuffer
  origin : Option Address
  symbols : Dictionary Nat
  listing : List Entry
  deriving DecidableEq

namespace Assembly

/-- The bytes of an entry; none if it does not lie inside the code. -/
def bytesOf (a : Assembly) (e : Entry) : List UInt8 := (a.code.slice? e.position e.length).getD []

/-- The address of a position in 32 bits.  Code without an origin is loaded at zero. -/
def addressOf (a : Assembly) (position : Nat) : UInt32 :=
  (a.origin.getD 0).toUInt32 + UInt32.ofNat position

end Assembly

end Z80
