import Z80.CommandLine.Files
import Z80.CommandLine.Help

/-!
# Tools

A tool reads its arguments, does what they ask for on a host, and leaves an exit code.
-/

namespace Z80.CommandLine

/-- A program: its arguments, and what it does with a source and options. -/
structure Tool (σ : Type) where
  interface : Interface σ
  work : {m : Type → Type} → [Monad m] → Host m → Text → σ → Job m Unit

/-! ## Messages -/

/-- Causes on lines of their own, with numbers if there are several. -/
def causeLines (causes : List Text) : Text :=
  match causes with
  | [cause] => "    ".toList ++ cause ++ ['\n']
  | _ =>
    causes.zipIdx.flatMap fun c =>
      (Nat.toDigits 10 c.2).leftpad 5 ' ' ++ ": ".toList ++ c.1 ++ ['\n']

def Complaint.render (c : Complaint) : Text :=
  "Error: ".toList ++ c.context ++ ['\n'] ++
    if c.causes.isEmpty then [] else "\nCaused by:\n".toList ++ causeLines c.causes

/-- A refusal of the arguments, with a hint where help is. -/
def UsageError.render (e : UsageError) : Text :=
  Styled.plain <|
    "error: ".toList :: e.message.extend "\n\nFor more information, try '".toList ++
      ["--help".toList, "'.\n".toList]

namespace Abort

def exit : Abort → Nat
  | complaint _ => 1
  | panic _ => 101

def render : Abort → Text
  | complaint c => c.render
  | panic message => message ++ ['\n']

end Abort

/-! ## Running -/

/-- Runs a tool on a host, and gives its exit code.  That the help cannot be printed is no
failure. -/
def Tool.perform {σ : Type} {m : Type → Type} [Monad m] (tool : Tool σ) (host : Host m)
    (arguments : List Text) : m Nat := do
  match tool.interface.read arguments with
  | .error e =>
    host.complain e.render
    return 2
  | .ok .help =>
    let _ ← host.print tool.interface.helpText.utf8
    return 0
  | .ok .version =>
    let _ ← host.print tool.interface.versionText.utf8
    return 0
  | .ok (.run source options) =>
    match ← (tool.work host source options).run with
    | .ok () => return 0
    | .error abort =>
      host.complain abort.render
      return abort.exit

/-- What a run leaves. -/
structure Outcome where
  exit : Nat
  stdout : List UInt8
  stderr : Text
  files : Files
  deriving DecidableEq

/-- Runs a tool on files. -/
def Tool.run {σ : Type} (tool : Tool σ) (files : Files) (arguments : List Text) : Outcome :=
  let (exit, w) := (tool.perform Files.host arguments).run ⟨files, [], []⟩
  ⟨exit, w.stdout, w.stderr, w.files⟩

end Z80.CommandLine
