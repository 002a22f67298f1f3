import Z80.Text

/-!
# Numerals

Numbers written as text and read from it, in decimal and in hexadecimal.
-/

namespace Z80.Numeral

/-! ## Writing -/

def decimal (n : Nat) : Text := Nat.toDigits 10 n

/-- Decimal digits after a minus sign if the number is negative. -/
def signedDecimal (n : Int) : Text :=
  if n < 0 then '-' :: decimal n.natAbs else decimal n.natAbs

/-- At least `width` lower case hexadecimal digits. -/
def hex (width n : Nat) : Text := (Nat.toDigits 16 n).leftpad width '0'

/-- The bytes as pairs of hexadecimal digits with a space between neighbours. -/
def hexDump (bytes : List UInt8) : Text :=
  List.intercalate [' '] (bytes.map fun b => hex 2 b.toNat)

/-! ## Reading -/

/-- The value of a digit in a base up to sixteen, in either letter case. -/
def digit? (base : Nat) (c : Char) : Option Nat :=
  let n := c.toNat
  let value :=
    if 48 ≤ n ∧ n ≤ 57 then n - 48
    else if 97 ≤ n ∧ n ≤ 102 then n - 87
    else if 65 ≤ n ∧ n ≤ 70 then n - 55
    else base
  if value < base then some value else none

/-- The number that a run of digits extends `value` to. -/
def digitsFrom? (base value : Nat) : Text → Option Nat
  | [] => some value
  | c :: rest => (digit? base c).bind fun d => digitsFrom? base (value * base + d) rest

/-- One or more digits. -/
def natural? (base : Nat) (t : Text) : Option Nat :=
  if t.isEmpty then none else digitsFrom? base 0 t

/-- One or more digits, after a minus sign or not. -/
def integer? (base : Nat) : Text → Option Int
  | '-' :: digits => (natural? base digits).map fun n => -(n : Int)
  | digits => (natural? base digits).map fun n => (n : Int)

end Z80.Numeral
