import Z80.CommandLine.Tool
import Z80.Proofs.Attempt

/-!
# What a host does to the world

A tool is told apart from its host by what can be seen of the world: the files and what has been
printed.  A sound host changes nothing when it reads, and writes a file as a whole or not at all;
what it prints it may print in part if that fails.  From this follows what a tool leaves that gives
up.
-/

namespace Z80.CommandLine

open Attempt

variable {ω π ρ : Type}

/-! ## Sights -/

/-- What can be seen of a world: the place that a name leads to, what the file at a place holds, and
what has been printed. -/
structure Sight (π : Type) where
  place? : Text → Option π
  content? : π → Option (List UInt8)
  printed : List UInt8

namespace Sight

/-- What the file holds that a name leads to. -/
def file? (v : Sight π) (name : Text) : Option (List UInt8) := (v.place? name).bind v.content?

/-- The text in the file that a name leads to. -/
def text? (v : Sight π) (name : Text) : Option Text := (v.file? name).bind Text.ofUtf8?

/-- More has been printed. -/
def print (v : Sight π) (part : List UInt8) : Sight π := { v with printed := v.printed ++ part }

@[simp] theorem place?_print (v : Sight π) (part : List UInt8) :
    (v.print part).place? = v.place? := rfl

@[simp] theorem content?_print (v : Sight π) (part : List UInt8) :
    (v.print part).content? = v.content? := rfl

@[simp] theorem printed_print (v : Sight π) (part : List UInt8) :
    (v.print part).printed = v.printed ++ part := rfl

@[simp] theorem print_nil (v : Sight π) : v.print [] = v := by
  rw [print, List.append_nil]

/-- A file has been written and nothing else has changed. -/
def Stored (v : Sight π) (name : Text) (content : List UInt8) (after : Sight π) : Prop :=
  ∃ place, after.place? name = some place ∧ after.content? place = some content ∧
    (∀ other, other ≠ place → after.content? other = v.content? other) ∧ after.printed = v.printed

/-- The content is in the file that is named, or else has been printed, and nothing else has
changed. -/
def Delivered (v : Sight π) (output : Option Text) (content : List UInt8)
    (after : Sight π) : Prop :=
  match output with
  | some name => v.Stored name content after
  | none => after = v.print content

end Sight

/-! ## Hosts -/

/-- What a host may do to what is seen of the world. -/
structure Host.Sound (host : Host (StateM ω)) (see : ω → Sight π) : Prop where
  /-- Reading changes nothing. -/
  see_readFile (name : Text) (w : ω) : see ((host.readFile name).run w).2 = see w
  /-- What is read is what the file holds. -/
  readFile_ok {name : Text} {content : List UInt8} {w w' : ω} :
    (host.readFile name).run w = (.ok content, w') → (see w).file? name = some content
  /-- A file is written as a whole, -/
  writeFile_ok {name : Text} {content : List UInt8} {w w' : ω} :
    (host.writeFile name content).run w = (.ok (), w') → (see w).Stored name content (see w')
  /-- or not at all. -/
  writeFile_error {name cause : Text} {content : List UInt8} {w w' : ω} :
    (host.writeFile name content).run w = (.error cause, w') → see w' = see w
  /-- What is printed comes after what has been printed. -/
  print_ok {content : List UInt8} {w w' : ω} :
    (host.print content).run w = (.ok (), w') → see w' = (see w).print content
  /-- Printing that fails may have printed a part. -/
  print_error {content : List UInt8} {cause : Text} {w w' : ω} :
    (host.print content).run w = (.error cause, w') →
      ∃ part, part <+: content ∧ see w' = (see w).print part
  /-- A complaint changes nothing. -/
  see_complain (message : Text) (w : ω) : see ((host.complain message).run w).2 = see w

/-- What is printed is printed as a whole or not at all. -/
def Host.PrintsWhole (host : Host (StateM ω)) (see : ω → Sight π) : Prop :=
  ∀ content cause w w', (host.print content).run w = (.error cause, w') → see w' = see w

section Jobs

variable {α : Type} {request : StateM ω (Except Text α)} {giveUp : Text → Abort} {abort : Abort}
  {w w' : ω}

theorem Job.ask_eq_ok {a : α} (h : (Job.ask request giveUp).run w = (.ok a, w')) :
    request.run w = (.ok a, w') := by
  rw [ask, run_bind_of_ok (run_liftM _ w)] at h
  cases hrun : request.run w with
  | mk r after =>
    rw [hrun] at h
    cases r with
    | error cause => cases h
    | ok _ =>
      cases h
      rfl

theorem Job.ask_eq_error (h : (Job.ask request giveUp).run w = (.error abort, w')) :
    ∃ cause, request.run w = (.error cause, w') := by
  rw [ask, run_bind_of_ok (run_liftM _ w)] at h
  cases hrun : request.run w with
  | mk r after =>
    rw [hrun] at h
    cases r with
    | error cause =>
      cases h
      exact ⟨cause, rfl⟩
    | ok _ => cases h

@[simp] theorem Job.snd_ask (request : StateM ω (Except Text α)) (giveUp : Text → Abort) (w : ω) :
    ((Job.ask request giveUp).run w).2 = (request.run w).2 := by
  rw [ask, run_bind_of_ok (run_liftM _ w)]
  cases (request.run w).1 <;> rfl

end Jobs

namespace Host

variable {host : Host (StateM ω)} {see : ω → Sight π} {name t : Text} {content : List UInt8}
  {output : Option Text} {unprinted : Text → Abort} {abort : Abort} {w w' : ω}

theorem load_eq_ok (h : (host.load name).run w = (.ok t, w')) :
    ∃ content, (host.readFile name).run w = (.ok content, w') ∧ Text.ofUtf8? content = some t := by
  obtain ⟨content, middle, hread, h⟩ := run_bind_eq_ok h
  split at h
  · next htext =>
    cases h
    exact ⟨content, Job.ask_eq_ok hread, htext⟩
  · cases h

theorem load_eq_error (h : (host.load name).run w = (.error abort, w')) :
    (∃ cause, (host.readFile name).run w = (.error cause, w')) ∨
      ∃ content, (host.readFile name).run w = (.ok content, w') ∧ Text.ofUtf8? content = none := by
  rcases run_bind_eq_error h with hread | ⟨content, middle, hread, h⟩
  · exact .inl (Job.ask_eq_error hread)
  · split at h
    · cases h
    · next htext =>
      cases h
      exact .inr ⟨content, Job.ask_eq_ok hread, htext⟩

/-- What cannot be sent cannot be written, or cannot be printed. -/
theorem send_eq_error (h : (host.send output unprinted content).run w = (.error abort, w')) :
    (∃ name cause, output = some name ∧
      (host.writeFile name content).run w = (.error cause, w')) ∨
    ∃ cause, output = none ∧ (host.print content).run w = (.error cause, w') := by
  cases output with
  | none =>
    obtain ⟨cause, hcause⟩ := Job.ask_eq_error h
    exact .inr ⟨cause, rfl, hcause⟩
  | some name =>
    obtain ⟨cause, hcause⟩ := Job.ask_eq_error h
    exact .inl ⟨name, cause, rfl, hcause⟩

namespace Sound

theorem keeps_load (hhost : host.Sound see) (name : Text) : Keeps see (host.load name) := by
  refine Keeps.bind (fun w => ?_) fun content => ?_
  · rw [Job.snd_ask]
    exact hhost.see_readFile name w
  · split
    · exact .pure _
    · exact .throw _

/-- The text that is loaded is that of the file. -/
theorem text?_of_load (hhost : host.Sound see) (h : (host.load name).run w = (.ok t, w')) :
    (see w).text? name = some t := by
  obtain ⟨content, hread, htext⟩ := load_eq_ok h
  rw [Sight.text?, hhost.readFile_ok hread, Option.bind_some, htext]

/-- A text that cannot be loaded cannot be read. -/
theorem readFile_of_load (hhost : host.Sound see) (h : (host.load name).run w = (.error abort, w'))
    (htext : (see w).text? name = some t) :
    ∃ cause, (host.readFile name).run w = (.error cause, w') := by
  rcases load_eq_error h with hread | ⟨content, hread, hnone⟩
  · exact hread
  · rw [Sight.text?, hhost.readFile_ok hread, Option.bind_some, hnone] at htext
    cases htext

theorem delivered_of_send (hhost : host.Sound see)
    (h : (host.send output unprinted content).run w = (.ok (), w')) :
    (see w).Delivered output content (see w') := by
  cases output with
  | none => exact hhost.print_ok (Job.ask_eq_ok h)
  | some name => exact hhost.writeFile_ok (Job.ask_eq_ok h)

/-- What cannot be sent has not been sent, or has been printed in part. -/
theorem print_of_send (hhost : host.Sound see)
    (h : (host.send output unprinted content).run w = (.error abort, w')) :
    ∃ part, see w' = (see w).print part ∧ (part ≠ [] → output = none ∧ part <+: content) := by
  rcases send_eq_error h with ⟨name, cause, -, hcause⟩ | ⟨cause, houtput, hcause⟩
  · exact ⟨[], by rw [hhost.writeFile_error hcause, Sight.print_nil], fun hne => absurd rfl hne⟩
  · obtain ⟨part, hpart, hsee⟩ := hhost.print_error hcause
    exact ⟨part, hsee, fun _ => ⟨houtput, hpart⟩⟩

theorem atomic_send (hhost : host.Sound see) (hprint : host.PrintsWhole see) (output : Option Text)
    (unprinted : Text → Abort) (content : List UInt8) :
    Atomic see (host.send output unprinted content) := by
  intro w abort w' h
  rcases send_eq_error h with ⟨name, cause, -, hcause⟩ | ⟨cause, -, hcause⟩
  · exact hhost.writeFile_error hcause
  · exact hprint content cause w w' hcause

end Sound

end Host

/-! ## Tools -/

theorem Abort.exit_ne_zero (abort : Abort) : abort.exit ≠ 0 := by
  cases abort <;> exact nofun

namespace Tool

variable {σ : Type} (tool : Tool σ) {host : Host (StateM ω)} {arguments : List Text}
  {source : Text} {o : σ} {abort : Abort} {w w' : ω}

theorem perform_of_usage {e : UsageError} (h : tool.interface.read arguments = .error e) :
    (tool.perform host arguments).run w = (2, ((host.complain e.render).run w).2) := by
  rw [perform, h]
  rfl

theorem perform_of_ok (h : tool.interface.read arguments = .ok (.run source o))
    (hwork : (tool.work host source o).run w = (.ok (), w')) :
    (tool.perform host arguments).run w = (0, w') := by
  rw [perform, h]
  dsimp only
  rw [StateT.run_bind, StateT.run, hwork]
  rfl

theorem perform_of_error (h : tool.interface.read arguments = .ok (.run source o))
    (hwork : (tool.work host source o).run w = (.error abort, w')) :
    (tool.perform host arguments).run w =
      (abort.exit, ((host.complain abort.render).run w').2) := by
  rw [perform, h]
  dsimp only
  rw [StateT.run_bind, StateT.run, hwork]
  rfl

/-- A tool whose exit code is not zero has refused its arguments or given up. -/
theorem perform_eq {exit : Nat} (h : (tool.perform host arguments).run w = (exit, w'))
    (hexit : exit ≠ 0) :
    (∃ e, tool.interface.read arguments = .error e ∧ w' = ((host.complain e.render).run w).2) ∨
    ∃ source o abort middle, tool.interface.read arguments = .ok (.run source o) ∧
      (tool.work host source o).run w = (.error abort, middle) ∧
      w' = ((host.complain abort.render).run middle).2 := by
  cases hread : tool.interface.read arguments with
  | error e =>
    rw [tool.perform_of_usage hread] at h
    cases h
    exact .inl ⟨e, rfl, rfl⟩
  | ok request =>
    cases request with
    | help =>
      rw [perform, hread] at h
      cases h
      exact absurd rfl hexit
    | version =>
      rw [perform, hread] at h
      cases h
      exact absurd rfl hexit
    | run source o =>
      cases hwork : (tool.work host source o).run w with
      | mk r middle =>
        cases r with
        | ok _ =>
          rw [tool.perform_of_ok hread hwork] at h
          cases h
          exact absurd rfl hexit
        | error abort =>
          rw [tool.perform_of_error hread hwork] at h
          cases h
          exact .inr ⟨source, o, abort, middle, rfl, hwork, rfl⟩

end Tool

end Z80.CommandLine
