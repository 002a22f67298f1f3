/-!
# Text

Source text is handled as the list of its characters, so that every reader and splitter is a
recursion on that list.  This file holds what the assembler does with text before it knows what the
text means: blanks, letter case, UTF-8, lines, and splitting, also outside quotes only.
-/

namespace Z80

/-- A text is the list of its characters. -/
abbrev Text := List Char

namespace Text

/-! ## Blanks -/

/-- The characters with the Unicode property White_Space. -/
def isBlank (c : Char) : Bool :=
  let n := c.toNat
  (9 ≤ n && n ≤ 13) || n == 0x20 || n == 0x85 || n == 0xA0 || n == 0x1680 ||
    (0x2000 ≤ n && n ≤ 0x200A) || n == 0x2028 || n == 0x2029 || n == 0x202F || n == 0x205F ||
    n == 0x3000

def trimStart (t : Text) : Text := t.dropWhile isBlank

def trimEnd (t : Text) : Text := (t.reverse.dropWhile isBlank).reverse

/-- The text without the blanks at its two ends. -/
def trim (t : Text) : Text := trimEnd (trimStart t)

/-- The part before the first blank, and the trimmed part after it. -/
def splitHead (t : Text) : Text × Text :=
  (t.takeWhile (!isBlank ·), trim (t.dropWhile (!isBlank ·)))

/-! ## Letter case and keywords -/

/-- ASCII letters in lower case, every other character as it is. -/
def lower (t : Text) : Text := t.map Char.toLower

/-- What follows `word` at the start of the text, where letter case does not count and the word has
to end there: with a blank or with the text. -/
def afterKeyword? (word t : Text) : Option Text :=
  let rest := t.drop word.length
  if lower (t.take word.length) = word ∧ rest.head?.all isBlank then some rest else none

/-! ## Bytes -/

/-- The UTF-8 bytes of a text. -/
def utf8 (t : Text) : List UInt8 := t.flatMap String.utf8EncodeChar

/-- The text with the given UTF-8 bytes, if there is one. -/
def ofUtf8? (bytes : List UInt8) : Option Text :=
  (String.fromUTF8? ⟨bytes.toArray⟩).map String.toList

/-! ## Pieces -/

/-- The pieces between separators.  The first piece stands apart, as there always is one. -/
def pieces (separator : Char) : Text → Text × List Text
  | [] => ([], [])
  | c :: rest =>
    let later := pieces separator rest
    if c = separator then ([], later.1 :: later.2) else (c :: later.1, later.2)

/-! ## Quotes

A character is quoted if the number of quotes before it is odd. -/

/-- Splits at the unquoted separators, given whether the text starts inside quotes.  The first piece
stands apart, as there always is one. -/
def splitOutsideFrom (separator : Char) (quoted : Bool) : Text → Text × List Text
  | [] => ([], [])
  | c :: rest =>
    if c = separator ∧ quoted = false then
      let pieces := splitOutsideFrom separator quoted rest
      ([], pieces.1 :: pieces.2)
    else
      let pieces := splitOutsideFrom separator (quoted != (c == '"')) rest
      (c :: pieces.1, pieces.2)

/-- The pieces between the unquoted separators. -/
def splitOutside (separator : Char) (t : Text) : List Text :=
  let pieces := splitOutsideFrom separator false t
  pieces.1 :: pieces.2

/-- The part before the first unquoted separator. -/
def beforeOutside (separator : Char) (t : Text) : Text := (splitOutsideFrom separator false t).1

/-- The text without a quote at each end, if it has both. -/
def unquote? : Text → Option Text
  | '"' :: rest => if rest.getLast? = some '"' then some rest.dropLast else none
  | _ => none

/-! ## Lines -/

/-- Drops the carriage return that a line ends in, for a line given in reverse. -/
def dropReturn : Text → Text
  | '\r' :: line => line
  | line => line

/-- The lines of a text, given the start of the first line in reverse. -/
def linesFrom (line : Text) : Text → List Text
  | [] => if line.isEmpty then [] else [line.reverse]
  | c :: rest =>
    if c = '\n' then (dropReturn line).reverse :: linesFrom [] rest else linesFrom (c :: line) rest

/-- The lines of a text.  A line ends at a line feed, and a carriage return just before that line
feed belongs to the line end.  Nothing follows a final line feed. -/
def lines (t : Text) : List Text := linesFrom [] t

end Text

end Z80
