import Z80.Proofs.LineByLine
import Z80.Proofs.Line

/-!
# Lines that say a step again

Each step of a session has a canonical line: a label after its colon, or the canonical text of a
statement.  If no variables are defined, the canonical line makes the same step in any other session
without variables that may declare the label.  The table must not use quotes in the names of its
instructions.
-/

namespace Z80

open Text (trim)

/-! ## Tables without quotes -/

/-- No key of the table holds a quote. -/
structure OpcodeTable.Unquoted (table : OpcodeTable) : Prop where
  fixed : ∀ e ∈ table.fixed, '"' ∉ e.1
  rules : ∀ e ∈ table.rules, '"' ∉ e.1

theorem InstructionSet.unquoted_table : table.Unquoted where
  fixed := by decide +kernel
  rules := by decide +kernel

theorem quote_notMem_of_lookup {α : Type} {l : List (Text × α)} (h : ∀ e ∈ l, '"' ∉ e.1)
    {key : Text} {value : α} (hkey : l.lookup key = some value) : '"' ∉ key := by
  obtain ⟨before, after, rfl, -⟩ := List.lookup_eq_some_iff.mp hkey
  exact h (key, value) (List.mem_append_right _ List.mem_cons_self)

theorem Statement.mnemonic_subset_join (s : Statement) (spell : Operand → Text) :
    s.mnemonic ⊆ s.join spell := by
  rw [join]
  split
  · exact List.Subset.refl _
  · exact List.subset_append_left _ _

/-- What such a table knows has no quote in its mnemonic. -/
theorem Encoding.quote_notMem_mnemonic {table : OpcodeTable} (htable : table.Unquoted)
    {s : Statement} {encoding : Encoding} (h : ofStatement table s = .ok encoding) :
    '"' ∉ s.mnemonic := by
  obtain ⟨reference?, -, h⟩ := bind_eq_ok.mp h
  obtain ⟨encoding', hplaceholder, -⟩ := bind_eq_ok.mp h
  rw [placeholder] at hplaceholder
  split at hplaceholder
  · next hdata =>
    rw [hdata]
    decide
  · split at hplaceholder
    · next hdata =>
      rw [hdata]
      decide
    · intro hmem
      rcases instruction_eq_ok hplaceholder with
        ⟨bytes, hfixed, -⟩ | ⟨key, operand, rule, value, hkey, hrule, -⟩
      · exact quote_notMem_of_lookup htable.fixed hfixed (s.mnemonic_subset_join _ hmem)
      · refine quote_notMem_of_lookup htable.rules hrule ?_
        rw [← (starred?_eq_some.mp hkey).2]
        exact s.mnemonic_subset_join _ hmem

/-! ## Steps and their lines -/

/-- The canonical line of a step says it again. -/
def Step.Rereads (table : OpcodeTable) : Step → Prop
  | .declare name => Text.IsLine (':' :: name) ∧ Line.read .empty (':' :: name) = .ok (.label name)
  | .emit statement encoding =>
    Text.IsLine statement.text ∧ Line.read .empty statement.text = .ok (.statement statement.text) ∧
      Statement.read table.vocabulary statement.text = .ok statement ∧
      Encoding.ofStatement table statement = .ok encoding
  | _ => True

namespace Session

variable {setup : Setup} {s : Session} {raw : Text} {step : Step}

/-- A step that no variable takes part in can be said again, and defines no variable. -/
theorem rereads_of_interpret (htable : setup.table.Unquoted) (hbindings : s.bindings = .empty)
    (hdollar : (trim (Line.stripComment raw)).head? ≠ some '$') (hfeed : '\n' ∉ raw)
    (h : s.interpret setup raw = .ok step) :
    step.Rereads setup.table ∧ (s.count.apply step).bindings = .empty := by
  cases interpret_eq_ok.mp h with
  | nothing hline => exact ⟨trivial, hbindings⟩
  | bind hline =>
    -- only a line that starts with a dollar defines a variable
    rw [hbindings] at hline
    obtain ⟨t, -, hmeans, -⟩ := Line.exists_settled hline hdollar (by simp)
    cases Line.ofFolded_eq_ok.mp hmeans
  | load hline => exact ⟨trivial, hbindings⟩
  | declare hline hallowed =>
    rw [hbindings] at hline
    obtain ⟨t, hsettled, hmeans, hfeed'⟩ := Line.exists_settled hline hdollar (by simp)
    obtain ⟨hlabel, hname, hsubset⟩ := hsettled.label (Line.ofFolded_eq_ok.mp hmeans)
    refine ⟨⟨hlabel.trimmed.isLine fun hmem => ?_, ?_⟩, hbindings⟩
    · rcases List.mem_cons.mp hmem with heq | hmem
      · exact absurd heq (by decide)
      · exact hfeed' hfeed (hsubset hmem)
    · rw [hlabel.read, Line.ofFolded_eq_ok]
      exact hname
  | emit hline hstatement hencoding =>
    rw [hbindings] at hline
    obtain ⟨t, hsettled, hmeans, hfeed'⟩ := Line.exists_settled hline hdollar (by simp)
    rw [Line.ofFolded_eq_ok] at hmeans
    obtain rfl : t = _ := by
      cases hmeans
      rfl
    obtain ⟨htext, hsame, hread⟩ := hsettled.statement hmeans hstatement
      (Encoding.quote_notMem_mnemonic htable hencoding)
    refine ⟨⟨htext.trimmed.isLine fun hmem => ?_, ?_, hread, hencoding⟩, hbindings⟩
    · rcases Statement.mem_of_mem_text hstatement hmem with hmem | heq
      · exact hfeed' hfeed hmem
      · exact absurd heq (by decide)
    · rw [htext.read, Line.ofFolded_eq_ok]
      exact hsame

/-- The steps of lines that define no variable can all be said again. -/
theorem rereads_of_mem_steps (htable : setup.table.Unquoted) (hbindings : s.bindings = .empty)
    {lines : List Text}
    (hlines : ∀ raw ∈ lines, (trim (Line.stripComment raw)).head? ≠ some '$' ∧ '\n' ∉ raw)
    {x : Session × Step} (hx : x ∈ s.steps setup lines) : x.2.Rereads setup.table := by
  induction lines generalizing s with
  | nil => cases hx
  | cons raw rest ih =>
    obtain ⟨hdollar, hfeed⟩ := hlines raw List.mem_cons_self
    have hrest : ∀ raw ∈ rest, (trim (Line.stripComment raw)).head? ≠ some '$' ∧ '\n' ∉ raw :=
      fun raw' hraw' => hlines raw' (List.mem_cons_of_mem _ hraw')
    rw [steps] at hx
    split at hx
    · exact ih (s := s.count) hbindings hrest hx
    · next step hstep =>
      obtain ⟨hrereads, hbindings'⟩ := rereads_of_interpret htable hbindings hdollar hfeed hstep
      rcases List.mem_cons.mp hx with rfl | hx
      · exact hrereads
      · exact ih hbindings' hrest hx

/-- The canonical line of a statement makes its step. -/
theorem interpret_text {statement : Statement} {encoding : Encoding}
    (h : (Step.emit statement encoding).Rereads setup.table) (hbindings : s.bindings = .empty) :
    s.interpret setup statement.text = .ok (.emit statement encoding) := by
  obtain ⟨-, hline, hstatement, hencoding⟩ := h
  exact interpret_eq_ok.mpr (.emit (by rw [hbindings]; exact hline) hstatement hencoding)

/-- The canonical line of a label that is not declared yet declares it. -/
theorem interpret_label {name : Text} (h : (Step.declare name).Rereads setup.table)
    (hbindings : s.bindings = .empty) (hfresh : s.labels.get? name = none) :
    s.interpret setup (':' :: name) = .ok (.declare name) := by
  refine interpret_eq_ok.mpr (.declare (by rw [hbindings]; exact h.2) fun hdeclared => ?_)
  rw [hfresh] at hdeclared
  cases hdeclared.1

/-- The canonical line of an origin sets it. -/
theorem interpret_originText (address : Address) (hbindings : s.bindings = .empty) :
    s.interpret setup (Line.originText address) = .ok (.load address) := by
  refine interpret_eq_ok.mpr (.load ?_)
  rw [hbindings, (Line.settled_originText address).read, Line.ofFolded_eq_ok]
  exact Line.means_originText address

end Session

end Z80
