import Z80.CommandLine.Assemble
import Z80.CommandLine.Lister

/-!
# The program

Runs a tool on the files of the system.  Which tool it is goes by the name that the program is
called by.
-/

namespace Z80.CommandLine

/-- Why the system could not do something: its words, with its number for them. -/
def causeOf : IO.Error → Text
  | .otherError code words | .resourceBusy code words | .resourceVanished code words
  | .unsupportedOperation code words | .hardwareFault code words
  | .unsatisfiedConstraints code words | .illegalOperation code words
  | .protocolError code words | .timeExpired code words | .alreadyExists _ code words
  | .interrupted _ code words | .noFileOrDirectory _ code words | .invalidArgument _ code words
  | .permissionDenied _ code words | .resourceExhausted _ code words
  | .inappropriateType _ code words | .noSuchThing _ code words =>
    words.toList ++ " (os error ".toList ++ Numeral.decimal code.toNat ++ [')']
  | e => e.toString.toList

/-- What is answered if the system does something, and if it cannot. -/
def answered {α : Type} (act : IO α) : IO (Except Text α) := do
  try return .ok (← act)
  catch e => return .error (causeOf e)

/-- The system itself. -/
def systemHost : Host IO where
  readFile name := answered do
    return (← (← IO.FS.Handle.mk (String.ofList name) .read).readBinToEnd).toList
  writeFile name content := answered do
    IO.FS.writeBinFile (String.ofList name) ⟨content.toArray⟩
  print content := answered do
    let stdout ← IO.getStdout
    stdout.write ⟨content.toArray⟩
    stdout.flush
  complain message := do
    let _ ← answered do (← IO.getStderr).putStr (String.ofList message)

end Z80.CommandLine

def main (arguments : List String) : IO UInt32 := do
  let program := (← IO.appPath).fileName.getD ""
  let arguments := arguments.map String.toList
  let exit ←
    if program == "z80asm-listing" then
      Z80.CommandLine.lister.perform Z80.CommandLine.systemHost arguments
    else Z80.CommandLine.assembler.perform Z80.CommandLine.systemHost arguments
  return exit.toUInt32
