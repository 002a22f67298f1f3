import Z80.Fault

/-!
# Code buffers

Machine code grows at its end.  Bytes that are there change only by a patch that lies inside the
code.
-/

namespace Z80

structure CodeBuffer where
  data : Array UInt8
  deriving DecidableEq

namespace CodeBuffer

def empty : CodeBuffer := ⟨#[]⟩

def ofList (bytes : List UInt8) : CodeBuffer := ⟨bytes.toArray⟩

def toList (code : CodeBuffer) : List UInt8 := code.data.toList

/-- The number of bytes, which is the position of the next one. -/
def size (code : CodeBuffer) : Nat := code.data.size

def emit (code : CodeBuffer) (bytes : List UInt8) : CodeBuffer := ⟨code.data ++ bytes⟩

/-- Overwrites bytes from a position on. -/
def overwrite (data : Array UInt8) (position : Nat) : List UInt8 → Array UInt8
  | [] => data
  | b :: rest => overwrite (data.setIfInBounds position b) (position + 1) rest

/-- Overwrites bytes that are all inside the code. -/
def patch (code : CodeBuffer) (position : Nat) (bytes : List UInt8) : Except Fault CodeBuffer :=
  if position + bytes.length ≤ code.size then .ok ⟨overwrite code.data position bytes⟩
  else .error (.patchOutOfBounds position code.size)

/-- The bytes of a range that lies inside the code. -/
def slice? (code : CodeBuffer) (position length : Nat) : Option (List UInt8) :=
  if position + length ≤ code.size then
    some (code.data.extract position (position + length)).toList
  else none

@[simp] theorem toList_empty : empty.toList = [] := rfl

@[simp] theorem toList_ofList (bytes : List UInt8) : (ofList bytes).toList = bytes := rfl

@[simp] theorem length_toList (code : CodeBuffer) : code.toList.length = code.size := rfl

@[simp] theorem toList_emit (code : CodeBuffer) (bytes : List UInt8) :
    (code.emit bytes).toList = code.toList ++ bytes := Array.toList_appendList

@[simp] theorem size_emit (code : CodeBuffer) (bytes : List UInt8) :
    (code.emit bytes).size = code.size + bytes.length := by
  rw [← length_toList, toList_emit, List.length_append, length_toList]

end CodeBuffer

end Z80
