import Z80.Assembly

/-!
# Listings

A listing shows each statement with its address and its bytes, and each label on a line of its own
before the first statement at or after its position.
-/

namespace Z80

/-- A label and its position. -/
structure Symbol where
  name : Text
  position : Nat
  deriving DecidableEq

/-- A line of a listing. -/
inductive Row where
  | label (symbol : Symbol)
  | entry (entry : Entry)
  deriving DecidableEq

/-- Symbols go by position, and at one position by name. -/
def Symbol.precedes (a b : Symbol) : Bool :=
  a.position < b.position || (a.position == b.position && !(decide (b.name < a.name)))

/-- Puts each symbol before the first entry at or after its position, and the others at the end. -/
def interleave (symbols : List Symbol) : List Entry → List Row
  | [] => symbols.map .label
  | e :: rest =>
    (symbols.takeWhile (·.position ≤ e.position)).map .label ++
      .entry e :: interleave (symbols.dropWhile (·.position ≤ e.position)) rest

namespace Assembly

/-- The symbols in the order of a listing. -/
def orderedSymbols (a : Assembly) : List Symbol :=
  (a.symbols.entries.map fun e => ⟨e.1, e.2⟩).mergeSort Symbol.precedes

def rows (a : Assembly) : List Row := interleave a.orderedSymbols a.listing

/-- The address, the bytes and the text of a statement. -/
def entryLine (a : Assembly) (e : Entry) : Text :=
  Numeral.hex 4 (a.addressOf e.position).toNat ++ "  ".toList ++
    (Numeral.hexDump (a.bytesOf e)).rightpad 12 ' ' ++ ' ' :: e.text

/-- The address and the name of a label. -/
def labelLine (a : Assembly) (s : Symbol) : Text :=
  Numeral.hex 4 (a.addressOf s.position).toNat ++ "  <".toList ++ s.name ++ ">:".toList

def rowLine (a : Assembly) : Row → Text
  | .label s => a.labelLine s
  | .entry e => a.entryLine e

/-- The listing, each line with a line feed. -/
def listingText (a : Assembly) : Text := a.rows.flatMap fun row => a.rowLine row ++ ['\n']

end Assembly

end Z80
