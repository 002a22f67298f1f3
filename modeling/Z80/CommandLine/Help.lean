import Z80.CommandLine.Arguments

/-!
# Help

The help of a program says what it does, how it is called, and what each argument means.  Arguments
and their meanings stand in two columns, and a meaning that is too long for the page goes on below
itself.
-/

namespace Z80.CommandLine

/-- The number of characters that a line of the help may have. -/
def pageWidth : Nat := 100

/-- Words on lines of a width, each line as full as it can be, where the first line has begun. -/
def fill (width : Nat) (line : Text) : List Text → List Text
  | [] => [line]
  | word :: rest =>
    if line.length + 1 + word.length ≤ width then fill width (line ++ ' ' :: word) rest
    else line :: fill width word rest

/-- An argument and its meaning, where names take a column of the given width. -/
def helpEntry (column : Nat) (name meaning : Text) : Text :=
  let indent := column + 4
  let words := Text.pieces ' ' meaning
  let lines := fill (pageWidth - indent) words.1 words.2
  "  ".toList ++ name.rightpad column ' ' ++ "  ".toList ++
    List.intercalate ('\n' :: List.replicate indent ' ') lines ++ ['\n']

/-- The entries of a list of arguments with their meanings. -/
def helpEntries (entries : List (Text × Text)) : Text :=
  let column := (entries.map (·.1.length)).foldl max 0
  entries.flatMap fun e => helpEntry column e.1 e.2

variable {σ : Type}

/-- How a switch is written: with its letter if it has one, and its value if it takes one. -/
def Switch.spelling (s : Switch σ) : Text :=
  (match s.short with
    | some c => ['-', c, ',', ' ']
    | none => "    ".toList) ++
    match s.effect with
    | .value parameter => parameter.argument
    | _ => "--".toList ++ s.long

namespace Interface

def versionText (interface : Interface σ) : Text := interface.program ++ " 0.1.0\n".toList

def helpText (interface : Interface σ) : Text :=
  interface.purpose ++ "\n\nUsage: ".toList ++ interface.program ++
    " [OPTIONS] <SOURCE>\n\nArguments:\n".toList ++
    helpEntries [("<SOURCE>".toList, interface.sourceMeaning)] ++ "\nOptions:\n".toList ++
    helpEntries (interface.switches.map fun s => (s.spelling, s.meaning))

end Interface

end Z80.CommandLine
