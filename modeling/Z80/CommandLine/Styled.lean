import Z80.Text

/-!
# Styled messages

A message is a list of spans, each in a style of its own.  A terminal learns about a style from a
control sequence in front of the span.  What is written elsewhere has no control sequences, neither
those nor any that the text itself holds, and no control characters but blanks.  As the next style
starts a sequence of its own, a sequence that a span leaves open ends with the span.
-/

namespace Z80.CommandLine

/-- How far a control sequence has come: none has begun, or what has been read of it so far. -/
inductive Control where
  | idle
  /-- The escape character. -/
  | escape
  /-- The escape character and intermediate characters. -/
  | escapeIntermediate
  /-- The start of a sequence that ends at a graphic character from `@` on. -/
  | sequence
  /-- The start of a string for the device, whose parameters follow. -/
  | deviceEntry
  | deviceParameters
  | deviceIntermediate
  /-- The inside of a string that ends at the byte 0x9C, also where this is part of a character. -/
  | string
  /-- The inside of a command that the bell ends. -/
  | command
  deriving DecidableEq

namespace Control

/-- The control characters that move the place of the next character: tabs and ends of lines. -/
def isLayout (c : Char) : Bool := c == '\t' || c == '\n' || c == '\x0c' || c == '\r'

/-- The characters from the blank to the tilde. -/
def isGraphic (c : Char) : Bool := 0x20 ≤ c.toNat && c.toNat < 0x7F

/-- How far the sequence is after one more character.  An escape starts afresh, and a cancel or a
substitute character breaks off. -/
def next (s : Control) (c : Char) : Control :=
  if c = '\x1b' then escape
  else if c = '\x18' ∨ c = '\x1a' then idle
  else
    match s with
    | idle => idle
    | escape =>
      if !isGraphic c then escape
      else if c < '0' then escapeIntermediate
      else if c = '[' then sequence
      else if c = ']' then command
      else if c = 'P' then deviceEntry
      else if c = 'X' ∨ c = '^' ∨ c = '_' then string
      else idle
    | escapeIntermediate => if isGraphic c ∧ '0' ≤ c then idle else escapeIntermediate
    | sequence => if isGraphic c ∧ '@' ≤ c then idle else sequence
    | deviceEntry =>
      if !isGraphic c then deviceEntry
      else if c < '0' then deviceIntermediate
      else if c < '@' then deviceParameters
      else string
    | deviceParameters =>
      if !isGraphic c then deviceParameters
      else if c < '0' then deviceIntermediate
      else if c < '<' then deviceParameters
      else string
    | deviceIntermediate => if isGraphic c ∧ '0' ≤ c then string else deviceIntermediate
    | string => if (0x9C : UInt8) ∈ String.utf8EncodeChar c then idle else string
    | command => if c = '\x07' then idle else command

/-- Whether a character is written.  A short sequence lets layout through, a string does not. -/
def shows (s : Control) (c : Char) : Bool :=
  match s with
  | idle => isLayout c || isGraphic c || 0x80 ≤ c.toNat
  | escape | escapeIntermediate | sequence => isLayout c
  | deviceEntry | deviceParameters | deviceIntermediate | string | command => false

/-- What is written of a text.  Layout inside a sequence interrupts it: what follows is written up
to the next control character, and there the sequence goes on, unless a character beyond ASCII has
ended it. -/
def visibleFrom (s : Control) (interrupted : Bool) : Text → Text
  | [] => []
  | c :: rest =>
    if shows (if interrupted then idle else s) c then
      c :: visibleFrom (if 0x80 ≤ c.toNat then idle else s) true rest
    else visibleFrom (s.next c) false rest

end Control

/-- What is written of a text without its control sequences. -/
def visible (t : Text) : Text := Control.visibleFrom .idle false t

/-- A message by its spans. -/
abbrev Styled := List Text

/-- Appends to the last span. -/
def Styled.extend (spans : Styled) (t : Text) : Styled :=
  spans.dropLast ++ [spans.getLast?.getD [] ++ t]

/-- The message as it is written where styles are not shown. -/
def Styled.plain (spans : Styled) : Text := spans.flatMap visible

end Z80.CommandLine
