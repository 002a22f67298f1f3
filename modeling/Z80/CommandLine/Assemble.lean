import Z80.CommandLine.Tool
import Z80.InstructionSet
import Z80.Settings

/-!
# The assembler's command line

Assembles a source file into the bytes of its code, or into their hex dump, on the standard output
or in a file.
-/

namespace Z80.CommandLine.Assemble

structure Options where
  output : Option Text := none
  hex : Bool := false
  origin : Option Address := none
  strictLabels : Bool := false
  config : Option Text := none

/-! ## Arguments -/

/-- A file name is not empty. -/
def fileName (t : Text) : Except Rejection Text := if t.isEmpty then .error .absent else .ok t

/-- The origin is a literal in the range of addresses. -/
def originValue (t : Text) : Except Rejection Address :=
  match Literal.read t with
  | .error fault => .error (.invalid (some fault.message))
  | .ok value =>
    match address? value with
    | some address => .ok address
    | none =>
      .error (.invalid (some (Numeral.signedDecimal value ++ " is not a 16-bit address".toList)))

def interface : Interface Options where
  program := "z80asm".toList
  purpose := "Assemble Z80 source into a raw binary image".toList
  sourceMeaning := []
  emptySource := false
  defaults := {}
  switches :=
    [⟨"output".toList, some 'o', .value ⟨"--output <FILE>".toList, (·.output.isSome),
        fun o t => (fileName t).map fun name => { o with output := some name }⟩,
        "Write output here instead of stdout".toList⟩,
      ⟨"hex".toList, none, .flag (·.hex) fun o => { o with hex := true },
        "Emit a space-separated hex dump instead of raw bytes".toList⟩,
      ⟨"org".toList, none, .value ⟨"--org <ORG>".toList, (·.origin.isSome),
        fun o t => (originValue t).map fun address => { o with origin := some address }⟩,
        "Origin to use when the source has no `org` line (hex or dec)".toList⟩,
      ⟨"strict-labels".toList, none,
        .flag (·.strictLabels) fun o => { o with strictLabels := true },
        "Fail on a redeclared label instead of keeping the last one".toList⟩,
      ⟨"config".toList, none, .value ⟨"--config <FILE>".toList, (·.config.isSome),
        fun o t => (fileName t).map fun name => { o with config := some name }⟩,
        "JSON file with assembler settings; flags take precedence".toList⟩,
      .help, .version]

/-! ## Work -/

section Work

variable {m : Type → Type} [Monad m] (host : Host m)

/-- The settings in the file that the options name, or the defaults. -/
def fileSettings (o : Options) : Job m Settings :=
  match o.config with
  | none => return {}
  | some name => do
    let t ← host.load name
    match Settings.read? t with
    | some settings => return settings
    | none => throw (.complaint ⟨"parsing ".toList ++ name, ["invalid settings".toList]⟩)

/-- Options go before the settings of a file. -/
def override (o : Options) (settings : Settings) : Settings where
  origin := o.origin.or settings.origin
  allowRedefinition := settings.allowRedefinition && !o.strictLabels

/-- What is written of some code. -/
def image (o : Options) (code : CodeBuffer) : List UInt8 :=
  if o.hex then (Numeral.hexDump code.toList ++ ['\n']).utf8 else code.toList

/-- Assembles a source. -/
def assembly (source : Text) (o : Options) : Job m Assembly := do
  let settings ← fileSettings host o
  let t ← host.load source
  match assemble ⟨InstructionSet.table, override o settings⟩ t with
  | .ok assembly => return assembly
  | .error failure =>
    throw (.complaint
      ⟨"assembling ".toList ++ source, [failure.message, failure.fault.message]⟩)

def work (source : Text) (o : Options) : Job m Unit := do
  let assembly ← assembly host source o
  host.send o.output (fun cause => .complaint ⟨cause, []⟩) (image o assembly.code)

end Work

end Assemble

/-- The assembler. -/
def assembler : Tool Assemble.Options where
  interface := Assemble.interface
  work := Assemble.work

end Z80.CommandLine
