import Z80.Word

/-!
# Events

What a run reports while it goes on: one event or more for each line that has an effect, one for
each label that is written into the code, and one at the end.
-/

namespace Z80

inductive Level where
  | trace
  | debug
  | info
  | warn
  deriving DecidableEq

inductive Event where
  | variableDefined (name value : Text)
  | origin (line : Nat) (address : Address)
  | labelRedeclared (line : Nat) (name : Text) (previous position : Nat)
  | label (line : Nat) (name : Text) (position : Nat)
  | statement (line position : Nat) (bytes : List UInt8) (text : Text)
  | absolutePatch (name : Text) (address : Address)
  | relativePatch (name : Text) (target : Nat)
  | finished (bytes labels patched : Nat)
  deriving DecidableEq

def Level.name : Level → Text
  | trace => "TRACE".toList
  | debug => "DEBUG".toList
  | info => "INFO".toList
  | warn => "WARN".toList

namespace Event

def message : Event → Text
  | variableDefined .. => "variable defined".toList
  | origin .. => "origin".toList
  | labelRedeclared .. => "label redeclared".toList
  | label .. => "label".toList
  | statement _ _ _ text => text
  | absolutePatch .. => "absolute patch".toList
  | relativePatch .. => "relative patch".toList
  | finished .. => "assembly finished".toList

/-- Bytes in decimal, with commas between brackets. -/
def byteList (bytes : List UInt8) : Text :=
  '[' :: List.intercalate ", ".toList (bytes.map fun b => Numeral.decimal b.toNat) ++ [']']

/-- The details of an event, by name. -/
def fields : Event → List (Text × Text)
  | variableDefined name value => [("name".toList, name), ("value".toList, value)]
  | origin line address =>
    [("line".toList, Numeral.decimal line), ("org".toList, Numeral.decimal address.toNat)]
  | labelRedeclared line name previous position =>
    [("line".toList, Numeral.decimal line), ("label".toList, name),
      ("prev".toList, Numeral.decimal previous), ("ip".toList, Numeral.decimal position)]
  | label line name position =>
    [("line".toList, Numeral.decimal line), ("label".toList, name),
      ("ip".toList, Numeral.decimal position)]
  | statement line position bytes _ =>
    [("line".toList, Numeral.decimal line), ("ip".toList, Numeral.decimal position),
      ("bytes".toList, byteList bytes)]
  | absolutePatch name address =>
    [("label".toList, name), ("addr".toList, Numeral.decimal address.toNat)]
  | relativePatch name target =>
    [("label".toList, name), ("target".toList, Numeral.decimal target)]
  | finished bytes labels patched =>
    [("bytes".toList, Numeral.decimal bytes), ("labels".toList, Numeral.decimal labels),
      ("patched".toList, Numeral.decimal patched)]

end Event

end Z80
