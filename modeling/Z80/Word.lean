import Z80.Fault

/-!
# Machine words

The numbers that machine code holds: bytes, words of two bytes with the low byte first, addresses,
and the displacements of relative jumps.
-/

namespace Z80

/-- The size of a number in machine code. -/
inductive Width where
  | byte
  | word
  deriving DecidableEq

/-- A place in the memory of the machine. -/
abbrev Address := UInt16

/-- The low bytes of a number in two's complement, the lowest first. -/
def littleEndian : Nat → Int → List UInt8
  | 0, _ => []
  | n + 1, value => UInt8.ofInt value :: littleEndian n (value / 256)

namespace Width

def size : Width → Nat
  | byte => 1
  | word => 2

def bits (w : Width) : Nat := 8 * w.size

/-- The least number that fits, in two's complement. -/
def least : Width → Int
  | byte => -0x80
  | word => -0x8000

/-- The greatest number that fits, without a sign. -/
def greatest : Width → Int
  | byte => 0xFF
  | word => 0xFFFF

/-- Whether a number fits, with a sign or without. -/
def Fits (w : Width) (value : Int) : Prop := w.least ≤ value ∧ value ≤ w.greatest

instance (w : Width) (value : Int) : Decidable (w.Fits value) :=
  inferInstanceAs (Decidable (_ ∧ _))

/-- The bytes of a number that fits. -/
def encode (w : Width) (value : Int) : Except Fault (List UInt8) :=
  if w.Fits value then .ok (littleEndian w.size value) else .error (.valueOutOfRange value w.bits)

end Width

/-- The number as an address, if it is one. -/
def address? (value : Int) : Option Address :=
  if 0 ≤ value ∧ value ≤ 0xFFFF then some (UInt16.ofInt value) else none

/-- The byte of a displacement, if it fits in one. -/
def displacement? (distance : Int) : Option UInt8 :=
  if -128 ≤ distance ∧ distance ≤ 127 then some (UInt8.ofInt distance) else none

end Z80
