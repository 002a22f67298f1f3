import Mathlib.Data.Nat.Find
import Z80.Proofs.Symbols

/-!
# Strict labels

Where no label may be declared again, a line is read as it is where labels may be, and then checked:
the declaration of a label that is there is refused (`interpret_strict`).  So a strict run keeps
step with a lenient one up to the first label that is declared again, and fails in that line.  If
there is none, the two runs are one, with the same events and the same end.
-/

namespace Z80

/-- The setup with another say on whether a label may be declared again. -/
def Setup.withRedefinition (setup : Setup) (allowed : Bool) : Setup :=
  { setup with settings := { setup.settings with allowRedefinition := allowed } }

namespace Session

variable {setup : Setup} {s : Session} {raw : Text} {rest lines : List Text} {step : Step}
    {name : Text}
  {j : Nat}

/-! ## One line -/

/-- What becomes of a step where no label may be declared again. -/
def permit (s : Session) : Step → Except Fault Step
  | .declare name =>
    if (s.labels.get? name).isSome then .error (.duplicateLabel name) else .ok (.declare name)
  | step => .ok step

/-- A strict session takes what a lenient one takes, and then looks whether a label is there. -/
theorem interpret_strict (setup : Setup) (s : Session) (raw : Text) :
    s.interpret (setup.withRedefinition false) raw =
      s.interpret (setup.withRedefinition true) raw >>= s.permit := by
  rw [interpret, interpret, bind_assoc]
  refine bind_congr fun line => ?_
  cases line with
  | label name =>
    simp only [Setup.withRedefinition, and_true, Bool.true_eq_false, and_false, if_false]
    rfl
  | statement text =>
    simp only [bind_assoc]
    rfl
  | _ => rfl

theorem permit_eq_ok (h : ∀ name, step = .declare name → (s.labels.get? name).isSome = false) :
    s.permit step = .ok step := by
  cases step with
  | declare name =>
    refine if_neg ?_
    rw [h name rfl]
    exact Bool.false_ne_true
  | _ => rfl

/-- After a step there are the labels from before, and the one that it declares. -/
theorem isSome_label_apply_iff (s : Session) (step : Step) (name : Text) :
    ((s.apply step).labels.get? name).isSome ↔
      (s.labels.get? name).isSome ∨ step = .declare name := by
  constructor
  · intro h
    cases step with
    | declare label =>
      change ((s.labels.insert label s.position).get? name).isSome at h
      rw [Dictionary.get?_insert] at h
      split at h
      · next heq => exact .inr (congrArg Step.declare heq.symm)
      · exact .inl h
    | _ => exact .inl h
  · rintro (h | rfl)
    · exact isSome_label_apply h step
    · change ((s.labels.insert name s.position).get? name).isSome
      rw [Dictionary.get?_insert, if_pos rfl]
      rfl

/-! ## Labels that are declared again -/

/-- The line with index `j` declares a label that is there already, from the start or by an earlier
line, and no line before it is refused. -/
structure Redeclares (setup : Setup) (s : Session) (lines : List Text) (j : Nat) (name : Text) :
    Prop where
  accepted : ∀ i < j, (s.lineSteps setup lines)[i]? ≠ some none
  declares : (s.lineSteps setup lines)[j]? = some (some (.declare name))
  declared : (s.labels.get? name).isSome ∨
    ∃ i < j, (s.lineSteps setup lines)[i]? = some (some (.declare name))

@[simp] theorem redeclares_zero :
    s.Redeclares setup (raw :: rest) 0 name ↔
      s.interpret setup raw = .ok (.declare name) ∧ (s.labels.get? name).isSome := by
  constructor
  · rintro ⟨-, hdeclares, hdeclared | ⟨i, hi, -⟩⟩
    · refine ⟨?_, hdeclared⟩
      cases h : s.interpret setup raw with
      | error fault =>
        rw [lineSteps_cons_of_error rest h] at hdeclares
        cases hdeclares
      | ok step =>
        rw [lineSteps_cons_of_ok rest h] at hdeclares
        cases hdeclares
        rfl
    · exact absurd hi (Nat.not_lt_zero i)
  · rintro ⟨hstep, hdeclared⟩
    refine ⟨fun i hi => absurd hi (Nat.not_lt_zero i), ?_, .inl hdeclared⟩
    rw [lineSteps_cons_of_ok rest hstep]
    rfl

/-- Behind a line that is accepted, a label is declared again if it is in the session after that
line. -/
theorem redeclares_succ (hstep : s.interpret setup raw = .ok step) :
    s.Redeclares setup (raw :: rest) (j + 1) name ↔
      (s.count.apply step).Redeclares setup rest j name := by
  have hsteps := lineSteps_cons_of_ok rest hstep
  have hlabels := isSome_label_apply_iff s.count step name
  constructor
  · rintro ⟨haccepted, hdeclares, hdeclared⟩
    rw [hsteps] at haccepted hdeclares hdeclared
    refine ⟨fun i hi => haccepted (i + 1) (Nat.succ_lt_succ hi), hdeclares, ?_⟩
    rcases hdeclared with hdeclared | ⟨i, hi, hdeclared⟩
    · exact .inl (hlabels.mpr (.inl hdeclared))
    · cases i with
      | zero => exact .inl (hlabels.mpr (.inr (Option.some.inj (Option.some.inj hdeclared))))
      | succ i => exact .inr ⟨i, Nat.lt_of_succ_lt_succ hi, hdeclared⟩
  · rintro ⟨haccepted, hdeclares, hdeclared⟩
    refine ⟨fun i hi => ?_, by rw [hsteps]; exact hdeclares, ?_⟩
    · rw [hsteps]
      cases i with
      | zero => exact nofun
      | succ i => exact haccepted i (Nat.lt_of_succ_lt_succ hi)
    · rw [hsteps]
      rcases hdeclared with hdeclared | ⟨i, hi, hdeclared⟩
      · rcases hlabels.mp hdeclared with hbefore | rfl
        · exact .inl hbefore
        · exact .inr ⟨0, Nat.succ_pos j, rfl⟩
      · exact .inr ⟨i + 1, Nat.succ_lt_succ hi, hdeclared⟩

/-- Behind a line that is refused no label counts as declared again. -/
theorem not_redeclares_of_error {fault : Fault} (h : s.interpret setup raw = .error fault) :
    ¬ s.Redeclares setup (raw :: rest) j name := by
  rintro ⟨haccepted, hdeclares, -⟩
  rw [lineSteps_cons_of_error rest h] at haccepted hdeclares
  cases j with
  | zero => cases hdeclares
  | succ j => exact haccepted 0 (Nat.succ_pos j) rfl

/-! ## Strict runs and lenient runs -/

theorem interpret_strict_of_error {fault : Fault}
    (h : s.interpret (setup.withRedefinition true) raw = .error fault) :
    s.interpret (setup.withRedefinition false) raw = .error fault := by
  rw [interpret_strict, h]
  rfl

/-- A line that does not declare a label again makes its step in a strict session too. -/
theorem interpret_strict_of_ok (h : s.interpret (setup.withRedefinition true) raw = .ok step)
    (hfirst : ∀ name, ¬ s.Redeclares (setup.withRedefinition true) (raw :: rest) 0 name) :
    s.interpret (setup.withRedefinition false) raw = .ok step := by
  rw [interpret_strict, h]
  refine permit_eq_ok fun name hdeclare => ?_
  rw [hdeclare] at h
  exact Bool.eq_false_iff.mpr fun hsome => hfirst name (redeclares_zero.mpr ⟨h, hsome⟩)

/-- Without a label that is declared again, a strict run is a lenient one. -/
theorem run_strict_of_none
    (h : ∀ j name, ¬ s.Redeclares (setup.withRedefinition true) lines j name) :
    s.run (setup.withRedefinition false) lines = s.run (setup.withRedefinition true) lines := by
  induction lines generalizing s with
  | nil => rfl
  | cons raw rest ih =>
    cases hstep : s.interpret (setup.withRedefinition true) raw with
    | error fault =>
      rw [run_cons_of_error hstep, run_cons_of_error (interpret_strict_of_error hstep)]
    | ok step =>
      rw [run_cons_of_ok hstep, run_cons_of_ok (interpret_strict_of_ok hstep (h 0)),
        ih fun j name hlater => h (j + 1) name ((redeclares_succ hstep).mpr hlater)]

/-- At the first label that is declared again, a strict run fails. -/
theorem run_strict_of_first (h : s.Redeclares (setup.withRedefinition true) lines j name)
    (hfirst : ∀ i < j, ∀ other, ¬ s.Redeclares (setup.withRedefinition true) lines i other) :
    (s.run (setup.withRedefinition false) lines).2 =
      .error (.line (s.lines + (j + 1)) (.duplicateLabel name)) := by
  induction lines generalizing s j with
  | nil => cases h.declares
  | cons raw rest ih =>
    cases hstep : s.interpret (setup.withRedefinition true) raw with
    | error fault => exact absurd h (not_redeclares_of_error hstep)
    | ok step =>
      cases j with
      | zero =>
        obtain ⟨hdeclare, hsome⟩ := redeclares_zero.mp h
        have hrefused : s.interpret (setup.withRedefinition false) raw =
            .error (.duplicateLabel name) := by
          rw [interpret_strict, hdeclare]
          exact if_pos hsome
        rw [run_cons_of_error hrefused]
      | succ j =>
        have hlater := ih ((redeclares_succ hstep).mp h) fun i hi other hother =>
          hfirst (i + 1) (Nat.succ_lt_succ hi) other ((redeclares_succ hstep).mpr hother)
        rw [run_cons_of_ok (interpret_strict_of_ok hstep (hfirst 0 (Nat.succ_pos j)))]
        dsimp only
        rw [hlater, lines_apply, lines_count, Nat.add_right_comm s.lines 1,
          ← Nat.add_assoc s.lines (j + 1)]

/-- Of the lines that declare a label again, one is the first. -/
theorem exists_first_redeclaration (h : ∃ j name, s.Redeclares setup lines j name) :
    ∃ j name, s.Redeclares setup lines j name ∧
      ∀ i < j, ∀ other, ¬ s.Redeclares setup lines i other := by
  classical
  obtain ⟨name, hname⟩ := Nat.find_spec h
  exact ⟨Nat.find h, name, hname, fun i hi other hother => Nat.find_min h hi ⟨other, hother⟩⟩

/-- Strict and lenient labels compared on any source.  If no line declares a label again before a
line is refused, the two runs have the same events and the same result.  If one does, the strict run
fails in the first such line, for its label.  So an assembly of a strict run is that of the lenient
one, and no two lines of a strict run declare the same label. -/
theorem strict_refines_lenient (setup : Setup) (source : Text) :
    ((∀ j name, ¬ start.Redeclares (setup.withRedefinition true) source.lines j name) →
      trace (setup.withRedefinition false) source = trace (setup.withRedefinition true) source) ∧
    (∀ j name, start.Redeclares (setup.withRedefinition true) source.lines j name →
      (∀ i < j, ∀ other, ¬ start.Redeclares (setup.withRedefinition true) source.lines i other) →
      assemble (setup.withRedefinition false) source =
        .error (.line (j + 1) (.duplicateLabel name))) ∧
    ∀ asm, assemble (setup.withRedefinition false) source = .ok asm →
      assemble (setup.withRedefinition true) source = .ok asm ∧
      ∀ (name : Text) (i j : Nat),
        (start.lineSteps (setup.withRedefinition false) source.lines)[i]? =
          some (some (.declare name)) →
        (start.lineSteps (setup.withRedefinition false) source.lines)[j]? =
          some (some (.declare name)) → i = j := by
  have hfails : ∀ j name, start.Redeclares (setup.withRedefinition true) source.lines j name →
      (∀ i < j, ∀ other, ¬ start.Redeclares (setup.withRedefinition true) source.lines i other) →
      assemble (setup.withRedefinition false) source =
        .error (.line (j + 1) (.duplicateLabel name)) := by
    intro j name h hfirst
    have hfailure := run_strict_of_first h hfirst
    have hstart : start.lines = 0 := rfl
    rwa [hstart, Nat.zero_add] at hfailure
  refine ⟨run_strict_of_none, hfails, fun asm hasm => ⟨?_, ?_⟩⟩
  · by_cases hagain : ∃ j name, start.Redeclares (setup.withRedefinition true) source.lines j name
    · obtain ⟨j, name, h, hfirst⟩ := exists_first_redeclaration hagain
      rw [hfails j name h hfirst] at hasm
      cases hasm
    · have hsame := run_strict_of_none fun j name h => hagain ⟨j, name, h⟩
      rw [← hasm]
      exact (congrArg Prod.snd hsame).symm
  · intro name i j hi hj
    refine declare_unique ?_ hi hj
    rfl

/-- A label in two spellings, and a line that is no instruction. -/
def respelled : Text := ":top\nnop\n: TOP ; again\noops".toList

/-- Two labels and a jump to one of them. -/
def distinct : Text := ":top\n:end\njr :top".toList

def distinctAssembly : Assembly where
  code := ⟨#[0x18, 0xFE]⟩
  origin := none
  symbols := (Dictionary.empty.insert "top".toList 0).insert "end".toList 0
  listing := [⟨3, 0, 2, "jr :top".toList⟩]

/-- With strict labels `respelled` fails in its third line, where the label is declared again, and
with lenient ones in its last; `distinct` has one assembly. -/
theorem respelled_strict :
    start.Redeclares (sampleSetup.withRedefinition true) respelled.lines 2 "top".toList ∧
    assemble (sampleSetup.withRedefinition false) respelled =
      .error (.line 3 (.duplicateLabel "top".toList)) ∧
    assemble (sampleSetup.withRedefinition true) respelled =
      .error (.line 4 (.unrecognizedInstruction "oops".toList)) ∧
    assemble (sampleSetup.withRedefinition false) distinct = .ok distinctAssembly ∧
    assemble (sampleSetup.withRedefinition true) distinct = .ok distinctAssembly := by
  have hsteps : start.lineSteps (sampleSetup.withRedefinition true) respelled.lines =
      [some (.declare "top".toList), some (.emit ⟨"nop".toList, []⟩ ⟨[0x00], .fixed, none⟩),
        some (.declare "top".toList), none] := by
    decide +kernel
  have hagain :
      start.Redeclares (sampleSetup.withRedefinition true) respelled.lines 2 "top".toList := by
    refine ⟨fun i hi => ?_, by rw [hsteps]; rfl, .inr ⟨0, by decide, by rw [hsteps]; rfl⟩⟩
    rw [hsteps]
    match i with
    | 0 => exact nofun
    | 1 => exact nofun
  have hfirst : ∀ i < 2, ∀ other,
      ¬ start.Redeclares (sampleSetup.withRedefinition true) respelled.lines i other := by
    rintro i hi other ⟨-, hdeclares, hdeclared⟩
    rw [hsteps] at hdeclares
    match i with
    | 0 =>
      rcases hdeclared with hstart | ⟨k, hk, -⟩
      · cases hstart
      · exact absurd hk (Nat.not_lt_zero k)
    | 1 => cases hdeclares
  have hdistinct : assemble (sampleSetup.withRedefinition false) distinct =
      .ok distinctAssembly := by
    decide +kernel
  obtain ⟨-, hfails, -⟩ := strict_refines_lenient sampleSetup respelled
  obtain ⟨-, -, hsame⟩ := strict_refines_lenient sampleSetup distinct
  exact ⟨hagain, hfails 2 _ hagain hfirst, by decide +kernel, hdistinct, (hsame _ hdistinct).1⟩

end Session

end Z80
