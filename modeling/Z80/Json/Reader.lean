import Z80.Json

/-!
# Reading JSON

A document is cut into tokens, which are then put together by a stack of the arrays and objects that
are still open.  Nothing but one value, with blanks around it, is a document.
-/

namespace Z80.Json

/-! ## Tokens -/

inductive Token where
  | mark (c : Char)
  | word (w : Text)
  | string (body : Text)
  deriving DecidableEq

/-- Where in a token a character stands; what is read of the token is held in reverse. -/
inductive Place where
  | between
  | word (read : Text)
  | string (read : Text)
  | escape (read : Text)
  | code (digits : Nat) (read : Text)
  deriving DecidableEq

def isSpace (c : Char) : Bool := c == ' ' || c == '\n' || c == '\t' || c == '\r'

def isMark (c : Char) : Bool := "[]\x7b\x7d:,".toList.contains c

/-- What a character means that is outside of strings. -/
def tokenStart (c : Char) : List Token × Place :=
  if c = '"' then ([], .string [])
  else if isSpace c then ([], .between)
  else if isMark c then ([.mark c], .between)
  else ([], .word [c])

/-- The tokens that a character completes, and the place of the next character. -/
def scan (c : Char) : Place → Option (List Token × Place)
  | .between => some (tokenStart c)
  | .word read =>
    match tokenStart c with
    | (_, .word _) => some ([], .word (c :: read))
    | (tokens, place) => some (.word read.reverse :: tokens, place)
  | .string read =>
    if c = '"' then some ([.string read.reverse], .between)
    else if c = '\\' then some ([], .escape (c :: read))
    else if c.toNat < 0x20 then none
    else some ([], .string (c :: read))
  | .escape read =>
    if c = 'u' then some ([], .code 4 (c :: read))
    else if "\"\\/bfnrt".toList.contains c then some ([], .string (c :: read))
    else none
  | .code digits read =>
    if (Numeral.digit? 16 c).isNone then none
    else if digits ≤ 1 then some ([], .string (c :: read))
    else some ([], .code (digits - 1) (c :: read))

/-- The tokens of a text, from a place on. -/
def tokensFrom? (place : Place) : Text → Option (List Token)
  | [] =>
    match place with
    | .between => some []
    | .word read => some [.word read.reverse]
    | _ => none
  | c :: rest =>
    match scan c place with
    | none => none
    | some (tokens, next) => (tokensFrom? next rest).map (tokens ++ ·)

/-! ## Words -/

/-- The rest after one or more digits. -/
def afterDigits? : Text → Option Text
  | c :: rest => if c.isDigit then some (rest.dropWhile Char.isDigit) else none
  | [] => none

/-- The rest after a whole number, which does not start with a zero unless it is zero. -/
def afterWhole? : Text → Option Text
  | '0' :: rest => some rest
  | t => afterDigits? t

/-- The rest after a fraction, if there is one. -/
def afterFraction? : Text → Option Text
  | '.' :: rest => afterDigits? rest
  | t => some t

/-- The rest after an exponent that follows its letter. -/
def afterExponent? : Text → Option Text
  | '+' :: rest => afterDigits? rest
  | '-' :: rest => afterDigits? rest
  | t => afterDigits? t

def isNumber (t : Text) : Bool :=
  let unsigned := if t.head? = some '-' then t.tail else t
  match (afterWhole? unsigned).bind afterFraction? with
  | some [] => true
  | some ('e' :: rest) => afterExponent? rest == some []
  | some ('E' :: rest) => afterExponent? rest == some []
  | _ => false

/-- The value that a word stands for. -/
def ofWord? (w : Text) : Option Json :=
  if w = "null".toList then some .null
  else if w = "true".toList then some (.bool true)
  else if w = "false".toList then some (.bool false)
  else if isNumber w then some (.number w)
  else none

/-! ## Values -/

/-- An open array or object with what it holds so far, in reverse, or the name of the member whose
value is being read. -/
inductive Frame where
  | array (items : List Json)
  | object (members : List (Text × Json))
  | member (name : Text)

/-- What comes next. -/
inductive Phase where
  | value
  | firstItem
  | firstName
  | name
  | colon (name : Text)
  | done (value : Json)

/-- The beginning of a value. -/
def beginValue (stack : List Frame) : Token → Option (Phase × List Frame)
  | .word w => (ofWord? w).map fun value => (.done value, stack)
  | .string body => some (.done (.string body), stack)
  | .mark c =>
    if c = '[' then some (.firstItem, .array [] :: stack)
    else if c = '\x7b' then some (.firstName, .object [] :: stack)
    else none

/-- What follows a value, in the array or the object that it stands in. -/
def afterValue (value : Json) (c : Char) : List Frame → Option (Phase × List Frame)
  | .array items :: stack =>
    if c = ',' then some (.value, .array (value :: items) :: stack)
    else if c = ']' then some (.done (.array (value :: items).reverse), stack)
    else none
  | .member name :: .object members :: stack =>
    if c = ',' then some (.name, .object ((name, value) :: members) :: stack)
    else if c = '\x7d' then some (.done (.object ((name, value) :: members).reverse), stack)
    else none
  | _ => none

/-- Takes one token. -/
def parseStep : Phase × List Frame → Token → Option (Phase × List Frame)
  | (.value, stack), token => beginValue stack token
  | (.firstItem, stack), token =>
    match token, stack with
    | .mark ']', .array _ :: outer => some (.done (.array []), outer)
    | _, _ => beginValue stack token
  | (.firstName, stack), token =>
    match token, stack with
    | .mark '\x7d', .object _ :: outer => some (.done (.object []), outer)
    | .string name, _ => some (.colon name, stack)
    | _, _ => none
  | (.name, stack), .string name => some (.colon name, stack)
  | (.colon name, stack), .mark ':' => some (.value, .member name :: stack)
  | (.done value, stack), .mark c => afterValue value c stack
  | _, _ => none

/-- The value that a text is. -/
def read? (t : Text) : Option Json := do
  let tokens ← tokensFrom? .between t
  match ← tokens.foldlM parseStep (.value, []) with
  | (.done value, []) => some value
  | _ => none

/-! ## Texts -/

/-- The number of four hexadecimal digits. -/
def code? (digits : Text) : Option Nat :=
  if digits.length = 4 then Numeral.natural? 16 digits else none

def isHighSurrogate (n : Nat) : Bool := 0xD800 ≤ n && n ≤ 0xDBFF

def isLowSurrogate (n : Nat) : Bool := 0xDC00 ≤ n && n ≤ 0xDFFF

/-- The character that a letter after a backslash stands for. -/
def escaped? (c : Char) : Option Char :=
  if c = 'b' then some '\x08'
  else if c = 't' then some '\t'
  else if c = 'n' then some '\n'
  else if c = 'f' then some '\x0c'
  else if c = 'r' then some '\r'
  else if c = '"' ∨ c = '\\' ∨ c = '/' then some c
  else none

/-- The text that the body of a string stands for.  Half of a surrogate pair stands for none. -/
def unescape? : Text → Option Text
  | '\\' :: 'u' :: a :: b :: c :: d :: rest =>
    (code? [a, b, c, d]).bind fun n =>
      if isHighSurrogate n then
        match rest with
        | '\\' :: 'u' :: e :: f :: g :: h :: rest =>
          (code? [e, f, g, h]).bind fun m =>
            if isLowSurrogate m then
              (unescape? rest).map (Char.ofNat (0x10000 + (n - 0xD800) * 0x400 + (m - 0xDC00)) :: ·)
            else none
        | _ => none
      else if isLowSurrogate n then none
      else (unescape? rest).map (Char.ofNat n :: ·)
  | '\\' :: c :: rest => (escaped? c).bind fun e => (unescape? rest).map (e :: ·)
  | c :: rest => (unescape? rest).map (c :: ·)
  | [] => some []

end Z80.Json
