import Z80.Numeral

/-!
# JSON

A JSON value as it is written: a number is held as its digits, and a string as the characters
between its quotes, escapes included.
-/

namespace Z80

inductive Json where
  | null
  | bool (value : Bool)
  | number (digits : Text)
  | string (body : Text)
  | array (items : List Json)
  | object (members : List (Text × Json))

namespace Json

/-! ## Strings -/

/-- A character as the body of a string holds it. -/
def escapeChar (c : Char) : Text :=
  if c = '"' then "\\\"".toList
  else if c = '\\' then "\\\\".toList
  else if c = '\x08' then "\\b".toList
  else if c = '\t' then "\\t".toList
  else if c = '\n' then "\\n".toList
  else if c = '\x0c' then "\\f".toList
  else if c = '\r' then "\\r".toList
  else if c.toNat < 0x20 then "\\u".toList ++ Numeral.hex 4 c.toNat
  else [c]

def escape (t : Text) : Text := t.flatMap escapeChar

def ofText (t : Text) : Json := .string (escape t)

def ofNat (n : Nat) : Json := .number (Numeral.decimal n)

/-! ## Printing -/

/-- A new line at a depth, where each level is set in by two spaces. -/
def newline (depth : Nat) : Text := '\n' :: List.replicate (2 * depth) ' '

def quoted (body : Text) : Text := '"' :: body ++ ['"']

mutual

/-- A value with each item and each member on a line of its own. -/
def pretty (depth : Nat) : Json → Text
  | null => "null".toList
  | bool true => "true".toList
  | bool false => "false".toList
  | number digits => digits
  | string body => quoted body
  | array [] => "[]".toList
  | array (item :: rest) =>
    '[' :: newline (depth + 1) ++ pretty (depth + 1) item ++ prettyItems (depth + 1) rest ++
      newline depth ++ [']']
  | object [] => "\x7b\x7d".toList
  | object ((key, value) :: rest) =>
    '\x7b' :: newline (depth + 1) ++ quoted key ++ ": ".toList ++ pretty (depth + 1) value ++
      prettyMembers (depth + 1) rest ++ newline depth ++ ['\x7d']

/-- Further items of an array. -/
def prettyItems (depth : Nat) : List Json → Text
  | [] => []
  | item :: rest => ',' :: newline depth ++ pretty depth item ++ prettyItems depth rest

/-- Further members of an object. -/
def prettyMembers (depth : Nat) : List (Text × Json) → Text
  | [] => []
  | (key, value) :: rest =>
    ',' :: newline depth ++ quoted key ++ ": ".toList ++ pretty depth value ++
      prettyMembers depth rest

end

end Json

end Z80
