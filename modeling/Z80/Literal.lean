import Z80.Fault

/-!
# Literals

A literal is a quoted character or a number in hexadecimal or decimal.  A bare number is hexadecimal
if it holds a letter from `a` to `f`, or starts with `0` and has an even number of bytes: `10` and
`010` are ten, and `0010` is sixteen.
-/

namespace Z80.Literal

/-- Whether a number without a mark of its base is hexadecimal. -/
def looksHexadecimal (t : Text) : Bool :=
  t.any (fun c => (Numeral.digit? 16 c).isSome && !c.isDigit) ||
    (t.utf8.length % 2 == 0 && t.head? == some '0')

/-- The digits of a number, with their sign, and their base. -/
def digitsAndBase : Text → Text × Nat
  | '0' :: 'x' :: digits => (digits, 16)
  | '0' :: 'X' :: digits => (digits, 16)
  | t =>
    if t.getLast? = some 'h' ∨ t.getLast? = some 'H' then (t.dropLast, 16)
    else if looksHexadecimal t then (t, 16)
    else (t, 10)

/-- Whether a number fits in 64 bits with a sign. -/
def InRange (n : Int) : Prop := -0x8000000000000000 ≤ n ∧ n ≤ 0x7FFFFFFFFFFFFFFF

instance (n : Int) : Decidable (InRange n) := inferInstanceAs (Decidable (_ ∧ _))

/-- The value of a text without blanks around it: the first byte after the quote, up to the next
quote, or the number in 64 bits that the digits stand for. -/
def value? : Text → Option Int
  | '"' :: rest =>
    if '"' ∈ rest then
      (Text.utf8 (rest.takeWhile (· != '"'))).head?.map fun b => (b.toNat : Int)
    else none
  | t => (Numeral.integer? (digitsAndBase t).2 (digitsAndBase t).1).filter fun n => InRange n

/-- The value of a token. -/
def read (token : Text) : Except Fault Int :=
  match value? (Text.trim token) with
  | some n => .ok n
  | none => .error (.invalidLiteral (Text.trim token))

end Z80.Literal
