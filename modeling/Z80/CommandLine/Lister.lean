import Z80.CommandLine.Tool
import Z80.InstructionSet
import Z80.Report
import Z80.Session

/-!
# The lister's command line

Assembles a source file and reports on it, as text or as JSON, with the symbols in a file of their
own if asked for.
-/

namespace Z80.CommandLine.Lister

inductive Format where
  | text
  | json
  deriving DecidableEq

structure Options where
  format : Option Format := none
  origin : Option Text := none
  symbols : Option Text := none
  output : Option Text := none

/-! ## Arguments -/

def formatValue (t : Text) : Except Rejection Format :=
  if t = "text".toList then .ok .text
  else if t = "json".toList then .ok .json
  else if t.isEmpty then .error .absent
  else .error (.invalid none)

def interface : Interface Options where
  program := "z80asm-listing".toList
  purpose := "Z80 assembly listing and symbol export".toList
  sourceMeaning := "Source file to assemble".toList
  emptySource := true
  defaults := {}
  switches :=
    [⟨"format".toList, none, .value ⟨"--format <FORMAT>".toList, (·.format.isSome),
        fun o t => (formatValue t).map fun format => { o with format := some format }⟩,
        "Output format: text or json [default: text] [possible values: text, json]".toList⟩,
      ⟨"org".toList, none, .value ⟨"--org <ORG>".toList, (·.origin.isSome),
        fun o t => .ok { o with origin := some t }⟩,
        "Origin to use when the source has no `org` line (hex or dec)".toList⟩,
      ⟨"symbols-out".toList, none, .value ⟨"--symbols-out <FILE>".toList, (·.symbols.isSome),
        fun o t => .ok { o with symbols := some t }⟩,
        "Export symbols to JSON (Vec<\x7b name, ip, addr \x7d>)".toList⟩,
      ⟨"out".toList, none, .value ⟨"--out <FILE>".toList, (·.output.isSome),
        fun o t => .ok { o with output := some t }⟩,
        "Write the listing to file instead of stdout".toList⟩,
      .help, .version]

/-! ## Work -/

/-- The origin that the options give. -/
def originOf (o : Options) : Except Complaint (Option Address) :=
  match o.origin with
  | none => .ok none
  | some t =>
    match Literal.read t with
    | .error fault => .error ⟨fault.message, []⟩
    | .ok value =>
      match address? value with
      | some address => .ok (some address)
      | none =>
        .error ⟨Numeral.signedDecimal value ++ " is not a 16-bit address".toList,
          [if value < 0 then "number too small to fit in target type".toList
            else "number too large to fit in target type".toList]⟩

/-- The report in the format that was asked for. -/
def reportText (o : Options) (a : Assembly) : Text :=
  match o.format.getD .text with
  | .text => a.reportText
  | .json => a.report.toJson.pretty 0 ++ ['\n']

def symbolsText (a : Assembly) : Text := (Report.symbolsJson a.symbolTable).pretty 0

section Work

variable {m : Type → Type} [Monad m] (host : Host m)

/-- Assembles a source. -/
def assembly (source : Text) (o : Options) : Job m Assembly := do
  let origin ← (originOf o).mapError Abort.complaint
  let t ← host.load source
  match assemble ⟨InstructionSet.table, { origin := origin }⟩ t with
  | .ok assembly => return assembly
  | .error failure => throw (.complaint ⟨failure.message, [failure.fault.message]⟩)

/-- The file of symbols goes before the report. -/
def work (source : Text) (o : Options) : Job m Unit := do
  let assembly ← assembly host source o
  o.symbols.forM fun name => host.store name (symbolsText assembly).utf8
  host.send o.output (fun cause => .panic ("failed printing to stdout: ".toList ++ cause))
    (reportText o assembly).utf8

end Work

end Lister

/-- The lister. -/
def lister : Tool Lister.Options where
  interface := Lister.interface
  work := Lister.work

end Z80.CommandLine
