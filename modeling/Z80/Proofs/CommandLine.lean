import Z80.CommandLine.Assemble
import Z80.CommandLine.Lister
import Z80.Proofs.Files
import Z80.Proofs.LineByLine
import Z80.Proofs.Pending

/-!
# What a command line changes

Both tools read and assemble before they write, and up to there they change nothing.  So whatever
fails on the way, from the arguments to the assembly, leaves the files as they were and nothing
printed.  The assembler then has one thing to write; its settings come from the options before they
come from a file, and the origin from the source before either.
-/

namespace Z80

/-- The origin of an assembly is the one that its source sets last, or else that of the settings. -/
theorem Session.origin_of_assemble {setup : Setup} {source : Text} {asm : Assembly}
    (h : assemble setup source = .ok asm) :
    asm.origin = (start.steps setup source.lines).origins.getLast?.or setup.settings.origin := by
  obtain ⟨after, hafter, hfinish⟩ := advance_of_assemble h
  have hrun := run_of_advance hafter
  obtain ⟨-, horigin, -, -⟩ := finish_eq_ok hrun.filled_start hfinish
  rw [horigin, effectiveOrigin, hrun.origin, Option.or_assoc]
  rfl

namespace CommandLine

open Attempt

variable {ω π : Type}

/-! ## The assembler -/

namespace Assemble

variable {host : Host (StateM ω)} {see : ω → Sight π} {v : Sight π} {w w' : ω} {source text : Text}
  {o : Options} {config settings : Settings} {asm : Assembly} {abort : Abort}

/-- The settings in the file that the options name, or the defaults. -/
inductive Configured (v : Sight π) (o : Options) : Settings → Prop
  | default (absent : o.config = none) : Configured v o {}
  | file {name t : Text} {config : Settings} (given : o.config = some name)
      (text : v.text? name = some t) (read : Settings.read? t = some config) : Configured v o config

/-- What the assembler makes of what it sees: the settings in the file that the options name, or the
defaults; the settings with those of the options before them; the text of the source, and its
assembly. -/
structure Assembles (v : Sight π) (source : Text) (o : Options) (config settings : Settings)
    (text : Text) (asm : Assembly) : Prop where
  configured : Configured v o config
  origin : settings.origin = o.origin.or config.origin
  strict : settings.allowRedefinition = false ↔
    o.strictLabels = true ∨ config.allowRedefinition = false
  source : v.text? source = some text
  assembly : assemble ⟨InstructionSet.table, settings⟩ text = .ok asm

theorem eq_override_iff :
    settings = override o config ↔
      settings.origin = o.origin.or config.origin ∧
        (settings.allowRedefinition = false ↔
          o.strictLabels = true ∨ config.allowRedefinition = false) := by
  obtain ⟨origin, allowed⟩ := settings
  rw [override, Settings.mk.injEq]
  refine and_congr_right fun _ => ?_
  dsimp only
  cases allowed <;> cases o.strictLabels <;> cases config.allowRedefinition <;> decide

theorem Configured.unique {config' : Settings} (h : Configured v o config)
    (h' : Configured v o config') : config' = config := by
  cases h with
  | default absent =>
    cases h' with
    | default => rfl
    | file given' => rw [absent] at given'; cases given'
  | file given text read =>
    cases h' with
    | default absent' => rw [given] at absent'; cases absent'
    | file given' text' read' =>
      rw [given] at given'
      cases given'
      rw [text] at text'
      cases text'
      rw [read] at read'
      exact (Option.some.inj read').symm

/-- The assembly goes by what is seen. -/
theorem Assembles.unique {config' settings' : Settings} {text' : Text} {asm' : Assembly}
    (h : Assembles v source o config settings text asm)
    (h' : Assembles v source o config' settings' text' asm') : asm' = asm := by
  have hsettings := eq_override_iff.mpr ⟨h.origin, h.strict⟩
  have hsettings' := eq_override_iff.mpr ⟨h'.origin, h'.strict⟩
  rw [h.configured.unique h'.configured, ← hsettings] at hsettings'
  have htext := h'.source
  have hasm := h'.assembly
  rw [h.source] at htext
  cases htext
  rw [hsettings', h.assembly] at hasm
  exact (Except.ok.inj hasm).symm

theorem keeps_fileSettings (hhost : host.Sound see) (o : Options) :
    Keeps see (fileSettings host o) := by
  unfold fileSettings
  split
  · exact .pure _
  · refine (hhost.keeps_load _).bind fun t => ?_
    split
    · exact .pure _
    · exact .throw _

theorem configured_of_fileSettings (hhost : host.Sound see)
    (h : (fileSettings host o).run w = (.ok config, w')) : Configured (see w) o config := by
  unfold fileSettings at h
  split at h
  · next habsent =>
    cases h
    exact .default habsent
  · next name hname =>
    obtain ⟨t, middle, hload, h⟩ := run_bind_eq_ok h
    split at h
    · next hsettings =>
      cases h
      exact .file hname (hhost.text?_of_load hload) hsettings
    · cases h

theorem keeps_assembly (hhost : host.Sound see) (source : Text) (o : Options) :
    Keeps see (assembly host source o) := by
  refine (keeps_fileSettings hhost o).bind fun config => (hhost.keeps_load source).bind fun t => ?_
  split
  · exact .pure _
  · exact .throw _

theorem assembles_of_assembly (hhost : host.Sound see)
    (h : (assembly host source o).run w = (.ok asm, w')) :
    ∃ config settings text, Assembles (see w) source o config settings text asm := by
  obtain ⟨config, middle, hconfig, h⟩ := run_bind_eq_ok h
  obtain ⟨text, middle', htext, h⟩ := run_bind_eq_ok h
  have hsame := (keeps_fileSettings hhost o).see_eq hconfig
  have hsource := hhost.text?_of_load htext
  rw [hsame] at hsource
  split at h
  · next hasm =>
    cases h
    obtain ⟨horigin, hstrict⟩ := eq_override_iff.mp (Eq.refl (override o config))
    exact ⟨config, override o config, text,
      ⟨configured_of_fileSettings hhost hconfig, horigin, hstrict, hsource, hasm⟩⟩
  · cases h

/-- An assembler that gives up has printed a part of its output at most. -/
theorem work_eq_error (hhost : host.Sound see)
    (h : (work host source o).run w = (.error abort, w')) :
    ∃ part, see w' = (see w).print part ∧
      (part ≠ [] → ∃ config settings text asm, o.output = none ∧
        Assembles (see w) source o config settings text asm ∧ part <+: image o asm.code) := by
  rcases run_bind_eq_error h with hassembly | ⟨asm, middle, hassembly, hsend⟩
  · refine ⟨[], ?_, fun hne => absurd rfl hne⟩
    rw [(keeps_assembly hhost source o).see_eq hassembly, Sight.print_nil]
  · obtain ⟨part, hpart, hprinted⟩ := hhost.print_of_send hsend
    rw [(keeps_assembly hhost source o).see_eq hassembly] at hpart
    refine ⟨part, hpart, fun hne => ?_⟩
    obtain ⟨config, settings, text, hworks⟩ := assembles_of_assembly hhost hassembly
    exact ⟨config, settings, text, asm, (hprinted hne).1, hworks, (hprinted hne).2⟩

theorem atomic_work (hhost : host.Sound see) (hprint : host.PrintsWhole see) (source : Text)
    (o : Options) : Atomic see (work host source o) :=
  (keeps_assembly hhost source o).atomic_bind fun _ => hhost.atomic_send hprint _ _ _

theorem work_eq_ok (hhost : host.Sound see) (h : (work host source o).run w = (.ok (), w')) :
    ∃ config settings text asm, Assembles (see w) source o config settings text asm ∧
      (see w).Delivered o.output (image o asm.code) (see w') := by
  obtain ⟨asm, middle, hassembly, hsend⟩ := run_bind_eq_ok h
  obtain ⟨config, settings, text, hworks⟩ := assembles_of_assembly hhost hassembly
  have hdelivered := hhost.delivered_of_send hsend
  rw [(keeps_assembly hhost source o).see_eq hassembly] at hdelivered
  exact ⟨config, settings, text, asm, hworks, hdelivered⟩

/-- What the assembler asks for and the host refuses, while all is seen as in a world `w`: reading
the settings or the source, or writing some content. -/
inductive Refused (host : Host (StateM ω)) (see : ω → Sight π) (w : ω) (source : Text) (o : Options)
    (content : List UInt8) : Prop
  | config {name cause : Text} {w' w'' : ω} (given : o.config = some name) (same : see w' = see w)
      (refused : (host.readFile name).run w' = (.error cause, w''))
  | source {cause : Text} {w' w'' : ω} (same : see w' = see w)
      (refused : (host.readFile source).run w' = (.error cause, w''))
  | file {name cause : Text} {w' w'' : ω} (given : o.output = some name) (same : see w' = see w)
      (refused : (host.writeFile name content).run w' = (.error cause, w''))
  | print {cause : Text} {w' w'' : ω} (given : o.output = none) (same : see w' = see w)
      (refused : (host.print content).run w' = (.error cause, w''))

/-- Settings that are there can be had unless the file cannot be read. -/
theorem readFile_of_fileSettings (hhost : host.Sound see) (hconfig : Configured (see w) o config)
    (h : (fileSettings host o).run w = (.error abort, w')) :
    ∃ name cause, o.config = some name ∧ (host.readFile name).run w = (.error cause, w') := by
  unfold fileSettings at h
  cases hconfig with
  | default absent =>
    rw [absent] at h
    cases h
  | @file name t _ given text read =>
    rw [given] at h
    rcases run_bind_eq_error h with hload | ⟨t', middle, hload, h⟩
    · obtain ⟨cause, hcause⟩ := hhost.readFile_of_load hload text
      exact ⟨name, cause, given, hcause⟩
    · rw [hhost.text?_of_load hload] at text
      cases text
      rw [read] at h
      cases h

/-- A source that assembles is assembled unless a file cannot be read. -/
theorem refused_of_assembly (hhost : host.Sound see)
    (hworks : Assembles (see w) source o config settings text asm)
    (h : (assembly host source o).run w = (.error abort, w')) (content : List UInt8) :
    Refused host see w source o content := by
  rcases run_bind_eq_error h with hconfig | ⟨config', middle, hconfig, h⟩
  · obtain ⟨name, cause, hname, hcause⟩ := readFile_of_fileSettings hhost hworks.configured hconfig
    exact .config hname rfl hcause
  have hsame := (keeps_fileSettings hhost o).see_eq hconfig
  have hsource := hworks.source
  rw [← hsame] at hsource
  rcases run_bind_eq_error h with hload | ⟨text', middle', hload, h⟩
  · obtain ⟨cause, hcause⟩ := hhost.readFile_of_load hload hsource
    exact .source hsame hcause
  · rw [hhost.text?_of_load hload] at hsource
    cases hsource
    have hsettings := eq_override_iff.mpr ⟨hworks.origin, hworks.strict⟩
    rw [hworks.configured.unique (configured_of_fileSettings hhost hconfig), ← hsettings,
      hworks.assembly] at h
    cases h

theorem refused_of_send (hsame : see w = see w') {unprinted : Text → Abort} {content : List UInt8}
    {w'' : ω} (h : (host.send o.output unprinted content).run w = (.error abort, w'')) :
    Refused host see w' source o content := by
  rcases Host.send_eq_error h with ⟨name, cause, houtput, hcause⟩ | ⟨cause, houtput, hcause⟩
  · exact .file houtput hsame hcause
  · exact .print houtput hsame hcause

/-- An assembler that gives up on a source that assembles has been refused something. -/
theorem refused_of_work (hhost : host.Sound see)
    (hworks : Assembles (see w) source o config settings text asm)
    (h : (work host source o).run w = (.error abort, w')) :
    Refused host see w source o (image o asm.code) := by
  rcases run_bind_eq_error h with hassembly | ⟨asm', middle, hassembly, hsend⟩
  · exact refused_of_assembly hhost hworks hassembly _
  · obtain ⟨_, _, _, hworks'⟩ := assembles_of_assembly hhost hassembly
    rw [hworks.unique hworks'] at hsend
    exact refused_of_send ((keeps_assembly hhost source o).see_eq hassembly) hsend

end Assemble

/-! ## The lister -/

namespace Lister

variable {host : Host (StateM ω)} {see : ω → Sight π} {w w' : ω} {arguments : List Text}
  {source : Text} {o : Options} {asm : Assembly}

/-- What the lister can fail at before it writes: its arguments, the origin among them, its source,
or the assembly of that. -/
inductive Fails (host : Host (StateM ω)) (w : ω) (arguments : List Text) : Prop
  | usage {e : UsageError} (refused : interface.read arguments = .error e)
  | origin {source text : Text} {o : Options}
      (taken : interface.read arguments = .ok (.run source o)) (given : o.origin = some text)
      (bad : ∀ value, Literal.read text = .ok value → address? value = none)
  | source {source : Text} {o : Options} (taken : interface.read arguments = .ok (.run source o))
      (unread : ∀ content w', (host.readFile source).run w = (.ok content, w') →
        Text.ofUtf8? content = none)
  | assembly {source text : Text} {o : Options} {origin : Option Address} {content : List UInt8}
      {w' : ω} {failure : Failure} (taken : interface.read arguments = .ok (.run source o))
      (given : originOf o = .ok origin) (read : (host.readFile source).run w = (.ok content, w'))
      (decoded : Text.ofUtf8? content = some text)
      (failed : assemble ⟨InstructionSet.table, { origin := origin }⟩ text = .error failure)

theorem originOf_of_bad {text : Text} (hgiven : o.origin = some text)
    (hbad : ∀ value, Literal.read text = .ok value → address? value = none)
    (origin : Option Address) : originOf o ≠ .ok origin := by
  rw [originOf, hgiven]
  dsimp only
  split
  · exact nofun
  · next value hvalue =>
    rw [hbad value hvalue]
    exact nofun

theorem keeps_assembly (hhost : host.Sound see) (source : Text) (o : Options) :
    Keeps see (assembly host source o) := by
  refine (Keeps.lift _).bind fun origin => (hhost.keeps_load source).bind fun t => ?_
  split
  · exact .pure _
  · exact .throw _

theorem assembly_eq_ok (h : (assembly host source o).run w = (.ok asm, w')) :
    ∃ origin content text, originOf o = .ok origin ∧
      (host.readFile source).run w = (.ok content, w') ∧ Text.ofUtf8? content = some text ∧
      assemble ⟨InstructionSet.table, { origin := origin }⟩ text = .ok asm := by
  obtain ⟨origin, middle, horigin, hrest⟩ := run_bind_eq_ok h
  cases hgiven : originOf o with
  | error complaint =>
    rw [hgiven] at horigin
    cases horigin
  | ok origin' =>
    rw [hgiven] at horigin
    cases horigin
    obtain ⟨text, middle', hload, hlast⟩ := run_bind_eq_ok hrest
    obtain ⟨content, hread, htext⟩ := Host.load_eq_ok hload
    split at hlast
    · next hasm =>
      cases hlast
      exact ⟨origin, content, text, rfl, hread, htext, hasm⟩
    · cases hlast

/-- A lister that does not get its assembly leaves nothing. -/
theorem nothing_of_assembly (hhost : host.Sound see)
    (htaken : interface.read arguments = .ok (.run source o))
    (hnone : ∀ asm w', (assembly host source o).run w ≠ (.ok asm, w')) {exit : Nat} {after : ω}
    (h : (lister.perform host arguments).run w = (exit, after)) : exit ≠ 0 ∧ see after = see w := by
  cases hassembly : (assembly host source o).run w with
  | mk r middle =>
    cases r with
    | ok asm => exact absurd hassembly (hnone asm middle)
    | error abort =>
      have hwork : (lister.work host source o).run w = (.error abort, middle) :=
        run_bind_of_error hassembly
      rw [lister.perform_of_error htaken hwork] at h
      cases h
      refine ⟨abort.exit_ne_zero, (hhost.see_complain _ _).trans ?_⟩
      exact (keeps_assembly hhost source o).see_eq hassembly

/-- A lister that fails before it writes leaves nothing. -/
theorem Fails.nothing (hhost : host.Sound see) (hfails : Fails host w arguments) {exit : Nat}
    {after : ω} (h : (lister.perform host arguments).run w = (exit, after)) :
    exit ≠ 0 ∧ see after = see w := by
  cases hfails with
  | usage refused =>
    rw [lister.perform_of_usage refused] at h
    cases h
    exact ⟨nofun, hhost.see_complain _ _⟩
  | origin taken given bad =>
    refine nothing_of_assembly hhost taken (fun asm w' hassembly => ?_) h
    obtain ⟨origin, _, _, horigin, -⟩ := assembly_eq_ok hassembly
    exact originOf_of_bad given bad origin horigin
  | source taken unread =>
    refine nothing_of_assembly hhost taken (fun asm w' hassembly => ?_) h
    obtain ⟨_, content, text, -, hread, htext, -⟩ := assembly_eq_ok hassembly
    rw [unread content w' hread] at htext
    cases htext
  | assembly taken given read decoded failed =>
    refine nothing_of_assembly hhost taken (fun asm w' hassembly => ?_) h
    obtain ⟨origin, content, text, horigin, hread, htext, hasm⟩ := assembly_eq_ok hassembly
    rw [given] at horigin
    cases horigin
    rw [read] at hread
    cases hread
    rw [decoded] at htext
    cases htext
    rw [failed] at hasm
    cases hasm

end Lister

/-! ## Command lines -/

/-- On a sound host, the assembler writes what it is to write, or nothing.  If it fails, all files
are as they were, and nothing has been printed unless it is printing that failed, in the middle of
the output.  If it does not, the settings and the source are what the files held, the origin is the
one that the source sets last, or else that of the options, or else that of the settings, and the
output is the code or its dump; and it does not fail on a source that assembles unless the host
refuses something.  The lister leaves everything as it was if it fails before it writes. -/
theorem tools_all_or_nothing {host : Host (StateM ω)} {see : ω → Sight π} (hhost : host.Sound see)
    (arguments : List Text) (w : ω) :
    (∀ exit after, (assembler.perform host arguments).run w = (exit, after) →
      (exit ≠ 0 →
        (see after).place? = (see w).place? ∧ (see after).content? = (see w).content? ∧
        (host.PrintsWhole see → (see after).printed = (see w).printed) ∧
        ∃ part, (see after).printed = (see w).printed ++ part ∧
          (part ≠ [] → ∃ source o config settings text asm,
            Assemble.interface.read arguments = .ok (.run source o) ∧ o.output = none ∧
            Assemble.Assembles (see w) source o config settings text asm ∧
            part <+: Assemble.image o asm.code)) ∧
      ∀ source o, Assemble.interface.read arguments = .ok (.run source o) →
        (exit = 0 → ∃ config settings text asm,
          Assemble.Assembles (see w) source o config settings text asm ∧
          asm.origin =
            (Session.start.steps ⟨InstructionSet.table, settings⟩ text.lines).origins.getLast?.or
              (o.origin.or config.origin) ∧
          (see w).Delivered o.output
            (if o.hex then (Numeral.hexDump asm.code.toList ++ ['\n']).utf8 else asm.code.toList)
            (see after)) ∧
        ∀ config settings text asm, Assemble.Assembles (see w) source o config settings text asm →
          exit = 0 ∨ Assemble.Refused host see w source o (Assemble.image o asm.code)) ∧
    (Lister.Fails host w arguments →
      ∀ exit after, (lister.perform host arguments).run w = (exit, after) →
        exit ≠ 0 ∧ (see after).place? = (see w).place? ∧ (see after).content? = (see w).content? ∧
          (see after).printed = (see w).printed) := by
  refine ⟨fun exit after hrun => ⟨fun hexit => ?_, fun source o hread => ?_⟩, ?_⟩
  · obtain ⟨e, -, rfl⟩ | ⟨source, o, abort, middle, hread, hwork, rfl⟩ :=
      assembler.perform_eq hrun hexit
    · rw [hhost.see_complain]
      exact ⟨rfl, rfl, fun _ => rfl, [], (List.append_nil _).symm, fun hne => absurd rfl hne⟩
    · rw [hhost.see_complain]
      obtain ⟨part, hsee, hpart⟩ := Assemble.work_eq_error hhost hwork
      refine ⟨by rw [hsee, Sight.place?_print], by rw [hsee, Sight.content?_print],
        fun hprint => ?_, part, by rw [hsee, Sight.printed_print], fun hne => ?_⟩
      · have hsame := Assemble.atomic_work hhost hprint source o w abort middle hwork
        exact congrArg Sight.printed hsame
      · obtain ⟨config, settings, text, asm, hassembled⟩ := hpart hne
        exact ⟨source, o, config, settings, text, asm, hread, hassembled⟩
  · cases hwork : (assembler.work host source o).run w with
    | mk r middle =>
      cases r with
      | ok _ =>
        rw [assembler.perform_of_ok hread hwork] at hrun
        cases hrun
        refine ⟨fun _ => ?_, fun _ _ _ _ _ => .inl rfl⟩
        obtain ⟨config, settings, text, asm, hworks, hdelivered⟩ := Assemble.work_eq_ok hhost hwork
        refine ⟨config, settings, text, asm, hworks, ?_, hdelivered⟩
        rw [Session.origin_of_assemble hworks.assembly, hworks.origin]
      | error abort =>
        rw [assembler.perform_of_error hread hwork] at hrun
        cases hrun
        exact ⟨fun hexit => absurd hexit abort.exit_ne_zero,
          fun _ _ _ _ hworks => .inr (Assemble.refused_of_work hhost hworks hwork)⟩
  · intro hfails exit after hrun
    obtain ⟨hexit, hsee⟩ := hfails.nothing hhost hrun
    exact ⟨hexit, congrArg Sight.place? hsee, congrArg Sight.content? hsee,
      congrArg Sight.printed hsee⟩

/-- A source without an origin, and settings that have one. -/
def sampleFiles : Files :=
  Files.place (Files.place Dictionary.empty "p.asm".toList (Text.utf8 ":top\njp :top".toList))
    "c.json".toList (Text.utf8 "\x7b\"origin\": 512\x7d".toList)

def sampleWorld : World := ⟨sampleFiles, [], []⟩

def sampleAssembly : Assembly where
  code := ⟨#[0xC3, 0x00, 0x10]⟩
  origin := some 0x1000
  symbols := Dictionary.empty.insert "top".toList 0
  listing := [⟨2, 0, 3, "jp :top".toList⟩]

/-- Options with an origin of their own, which goes before that of the settings. -/
def sampleOptions : Assemble.Options where
  output := some "out.txt".toList
  hex := true
  origin := some 0x1000
  config := some "c.json".toList

def sampleArguments : List Text :=
  ["p.asm", "--hex", "--org=1000h", "-o", "out.txt", "--config", "c.json"].map String.toList

/-- Settings that are none, in the file that is to be written too. -/
def confusedArguments : List Text :=
  ["p.asm", "--config", "p.asm", "-o", "p.asm"].map String.toList

/-- An origin that is no address. -/
def remoteArguments : List Text := ["p.asm", "--org", "70000", "--out", "p.asm"].map String.toList

/-- Code for the standard output. -/
def printedArguments : List Text := ["p.asm", "--config", "c.json"].map String.toList

/-- Files on a system whose standard output breaks after a byte. -/
def brokenHost : Host (StateM World) :=
  { Files.host with
    print := fun content => modifyGet fun w =>
      (.error "Broken pipe (os error 32)".toList, { w with stdout := w.stdout ++ content.take 1 }) }

theorem sound_brokenHost : brokenHost.Sound Files.see :=
  { Files.sound_host with
    print_ok := fun h => by cases h
    print_error := fun {content _ _ _} h => by
      cases h
      exact ⟨content.take 1, List.take_prefix 1 content, rfl⟩ }

theorem sampleArguments_all_or_nothing :
    Assemble.interface.read sampleArguments = .ok (.run "p.asm".toList sampleOptions) ∧
    Assemble.Assembles (Files.see sampleWorld) "p.asm".toList sampleOptions ⟨some 512, true⟩
      ⟨some 0x1000, true⟩ ":top\njp :top".toList sampleAssembly ∧
    (Files.see sampleWorld).Delivered (some "out.txt".toList) (Text.utf8 "c3 00 10\n".toList)
      (Files.see ((assembler.perform Files.host sampleArguments).run sampleWorld).2) ∧
    ((assembler.perform Files.host confusedArguments).run sampleWorld).1 = 1 ∧
    (Files.see ((assembler.perform Files.host confusedArguments).run sampleWorld).2).content? =
      (Files.see sampleWorld).content? ∧
    ((assembler.perform brokenHost printedArguments).run sampleWorld).1 = 1 ∧
    (Files.see ((assembler.perform brokenHost printedArguments).run sampleWorld).2).printed =
      [0xC3] ∧
    (Files.see ((assembler.perform brokenHost printedArguments).run sampleWorld).2).content? =
      (Files.see sampleWorld).content? ∧
    Lister.Fails Files.host sampleWorld remoteArguments ∧
    (Files.see ((lister.perform Files.host remoteArguments).run sampleWorld).2).content? =
      (Files.see sampleWorld).content? := by
  have hread : Assemble.interface.read sampleArguments =
      .ok (.run "p.asm".toList sampleOptions) := rfl
  have hworks : Assemble.Assembles (Files.see sampleWorld) "p.asm".toList sampleOptions
      ⟨some 512, true⟩ ⟨some 0x1000, true⟩ ":top\njp :top".toList sampleAssembly := by
    constructor
    case configured =>
      have htext : (Files.see sampleWorld).text? "c.json".toList =
          some "\x7b\"origin\": 512\x7d".toList := by
        decide +kernel
      exact .file rfl htext (by decide +kernel)
    case origin => rfl
    case strict => decide
    case source => decide +kernel
    case assembly => decide +kernel
  have hexit : ((assembler.perform Files.host sampleArguments).run sampleWorld).1 = 0 := by
    decide +kernel
  have hdump : (Numeral.hexDump sampleAssembly.code.toList ++ ['\n']).utf8 =
      Text.utf8 "c3 00 10\n".toList := by
    decide +kernel
  have hconfused : ((assembler.perform Files.host confusedArguments).run sampleWorld).1 = 1 := by
    decide +kernel
  have hbroken : ((assembler.perform brokenHost printedArguments).run sampleWorld).1 = 1 := by
    decide +kernel
  have hprinted :
      (Files.see ((assembler.perform brokenHost printedArguments).run sampleWorld).2).printed =
        [0xC3] := by
    decide +kernel
  have hfails : Lister.Fails Files.host sampleWorld remoteArguments := by
    have hlisted : Lister.interface.read remoteArguments =
        .ok (.run "p.asm".toList ⟨none, some "70000".toList, none, some "p.asm".toList⟩) := rfl
    refine .origin hlisted rfl fun value hvalue => ?_
    have hliteral : Literal.read "70000".toList = .ok 70000 := by decide +kernel
    rw [hliteral] at hvalue
    cases hvalue
    rfl
  obtain ⟨hruns, -⟩ := tools_all_or_nothing Files.sound_host sampleArguments sampleWorld
  obtain ⟨hnothing, -⟩ := tools_all_or_nothing Files.sound_host confusedArguments sampleWorld
  obtain ⟨hpartial, -⟩ := tools_all_or_nothing sound_brokenHost printedArguments sampleWorld
  obtain ⟨-, hlister⟩ := tools_all_or_nothing Files.sound_host remoteArguments sampleWorld
  obtain ⟨_, _, _, _, hworks', -, hdelivered⟩ :=
    ((hruns _ _ (Prod.eta _).symm).2 _ _ hread).1 hexit
  rw [hworks.unique hworks'] at hdelivered
  rw [← hdump]
  refine ⟨hread, hworks, hdelivered, hconfused, ((hnothing _ _ (Prod.eta _).symm).1 ?_).2.1,
    hbroken, hprinted, ((hpartial _ _ (Prod.eta _).symm).1 ?_).2.1, hfails,
    (hlister hfails _ _ (Prod.eta _).symm).2.2.1⟩
  · rw [hconfused]
    exact nofun
  · rw [hbroken]
    exact nofun

end CommandLine

end Z80
