import Z80.Text

/-!
# Hosts

The system that a tool runs on, by what a tool asks of it.  Everything but a complaint may fail,
with the system's words for the reason; a tool that gives up says why.
-/

namespace Z80.CommandLine

/-- What a system does when it is asked to, in a monad of its own. -/
structure Host (m : Type → Type) where
  /-- The content of a file. -/
  readFile : Text → m (Except Text (List UInt8))
  /-- Writes a file with the given content, instead of the one that is there. -/
  writeFile : Text → List UInt8 → m (Except Text Unit)
  /-- Writes to the standard output. -/
  print : List UInt8 → m (Except Text Unit)
  /-- Writes to the standard error. -/
  complain : Text → m Unit

/-- A complaint says what was being done and why it failed, from the outside in. -/
structure Complaint where
  context : Text
  causes : List Text
  deriving DecidableEq

/-- How a tool gives up: it complains, or it breaks down. -/
inductive Abort where
  | complaint (c : Complaint)
  | panic (message : Text)
  deriving DecidableEq

/-- What a tool does on a host, unless it gives up.  What was done up to there stays done. -/
abbrev Job (m : Type → Type) := ExceptT Abort m

/-- Asks for something; `giveUp` is how to give up if that fails. -/
def Job.ask {m : Type → Type} [Monad m] {α : Type} (request : m (Except Text α))
    (giveUp : Text → Abort) : Job m α := do
  match ← request with
  | .error cause => throw (giveUp cause)
  | .ok a => return a

namespace Host

variable {m : Type → Type} [Monad m] (host : Host m)

/-- Reads a file as text. -/
def load (name : Text) : Job m Text := do
  let complaint (cause : Text) : Abort := .complaint ⟨"reading ".toList ++ name, [cause]⟩
  let content ← Job.ask (host.readFile name) complaint
  match Text.ofUtf8? content with
  | some t => return t
  | none => throw (complaint "stream did not contain valid UTF-8".toList)

/-- Writes a file. -/
def store (name : Text) (content : List UInt8) : Job m Unit :=
  Job.ask (host.writeFile name content) fun cause =>
    .complaint ⟨"writing ".toList ++ name, [cause]⟩

/-- Writes the file that is named, or else to the standard output; `unprinted` is how to give up if
that fails. -/
def send (output : Option Text) (unprinted : Text → Abort) (content : List UInt8) : Job m Unit :=
  match output with
  | some name => host.store name content
  | none => Job.ask (host.print content) unprinted

end Host

end Z80.CommandLine
