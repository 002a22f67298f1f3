import Z80.Json
import Z80.Listing

/-!
# Reports

An assembly as a table of lines and a table of symbols, and both as text and as JSON.
-/

namespace Z80

namespace Report

structure Line where
  line : Nat
  address : UInt32
  bytes : Text
  text : Text
  deriving DecidableEq

structure Symbol where
  name : Text
  position : Nat
  address : UInt32
  deriving DecidableEq

end Report

structure Report where
  origin : Option Address
  size : Nat
  lines : List Report.Line
  symbols : List Report.Symbol
  deriving DecidableEq

namespace Assembly

/-- The symbols by name. -/
def symbolTable (a : Assembly) : List Report.Symbol :=
  a.symbols.entries.map fun e => ⟨e.1, e.2, a.addressOf e.2⟩

def report (a : Assembly) : Report where
  origin := a.origin
  size := a.code.size
  lines :=
    a.listing.map fun e =>
      ⟨e.line, a.addressOf e.position, Numeral.hexDump (a.bytesOf e), e.text⟩
  symbols := a.symbolTable

/-- The origin and the size of the code. -/
def headline (a : Assembly) : Text :=
  (match a.origin with
    | some origin => "; origin 0x".toList ++ Numeral.hex 4 origin.toNat
    | none => "; no origin".toList) ++
    ", ".toList ++ Numeral.decimal a.code.size ++ " bytes\n".toList

/-- A line of the table of symbols. -/
def symbolLine (name position address : Text) : Text :=
  name.rightpad 16 ' ' ++ ' ' :: position.rightpad 6 ' ' ++ ' ' :: address ++ ['\n']

/-- The table of symbols after an empty line; nothing if there are none. -/
def symbolText (a : Assembly) : Text :=
  if a.symbols.isEmpty then []
  else
    '\n' :: symbolLine "symbol".toList "ip".toList "addr".toList ++
      a.symbolTable.flatMap fun s =>
        symbolLine s.name (Numeral.decimal s.position) (Numeral.hex 4 s.address.toNat)

/-- The report as text. -/
def reportText (a : Assembly) : Text := a.headline ++ a.listingText ++ a.symbolText

end Assembly

/-! ## JSON -/

namespace Report

def Line.toJson (l : Line) : Json :=
  .object [("line".toList, .ofNat l.line), ("addr".toList, .ofNat l.address.toNat),
    ("bytes".toList, .ofText l.bytes), ("source".toList, .ofText l.text)]

def Symbol.toJson (s : Symbol) : Json :=
  .object [("name".toList, .ofText s.name), ("ip".toList, .ofNat s.position),
    ("addr".toList, .ofNat s.address.toNat)]

def symbolsJson (symbols : List Symbol) : Json := .array (symbols.map Symbol.toJson)

def toJson (r : Report) : Json :=
  .object [("origin".toList, match r.origin with
      | some origin => .ofNat origin.toNat
      | none => .null),
    ("size".toList, .ofNat r.size), ("lines".toList, .array (r.lines.map Line.toJson)),
    ("symbols".toList, symbolsJson r.symbols)]

end Report

end Z80
