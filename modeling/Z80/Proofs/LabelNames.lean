import Z80.Proofs.Jumps
import Z80.Proofs.Line
import Z80.Proofs.LineByLine

/-!
# Names of labels

A label is declared by a colon and a name, and a jump refers to it by a colon and a name.  The two
are read along different ways: one as a line, the other as a list of operands.  They agree on every
text: if a line declares a name, the jump with the same text refers to that name, or is refused.  It
is refused if the name holds a colon, or a comma that is not quoted.
-/

namespace Z80

open Text (Trimmed trim trimEnd quotedAfter outside squeeze isBlank)

/-! ## A line behind its start -/

namespace Line

variable {vars : Variables} {front r : Text}

/-- What is left of the rest of a line before its letters are folded. -/
def remainder (vars : Variables) (r : Text) : Text :=
  trimEnd (vars.substitute (trimEnd (stripComment r)))

/-- A start of a line that is read as it is, whatever follows. -/
structure Start (front : Text) : Prop where
  trimmed : Trimmed front
  ne_nil : front ≠ []
  quote : '"' ∉ front
  comment : ';' ∉ front
  dollar : '$' ∉ front
  lower : Text.lower front = front
  keyword : front.head? ≠ some 'd'

namespace Start

theorem piece (h : Start front) : Text.Piece ';' front where
  notMem := by rw [Text.outside_of_notMem h.quote]; exact h.comment
  closed := Text.quotedAfter_of_notMem false h.quote

theorem trimmed_append (h : Start front) (vars : Variables) (r : Text) :
    Trimmed (front ++ remainder vars r) := by
  rw [remainder, ← Text.trim_append_of_start h.trimmed h.ne_nil]
  exact Text.trimmed_trim _

/-- The rest of a line is read in the same way behind every start. -/
theorem read (h : Start front) :
    Line.read vars (front ++ r) = foldCase (front ++ remainder vars r) >>= ofFolded := by
  have hstrip : trim (stripComment (front ++ r)) = front ++ trimEnd (stripComment r) := by
    rw [stripComment, Text.beforeOutside_append (by decide) h.piece,
      Text.trim_append_of_start h.trimmed h.ne_nil]
    rfl
  have hne : front ++ trimEnd (stripComment r) ≠ [] := by simp [h.ne_nil]
  have hdollar : (front ++ trimEnd (stripComment r)).head? ≠ some '$' := by
    obtain ⟨c, rest, rfl⟩ := List.exists_cons_of_ne_nil h.ne_nil
    rintro ⟨⟩
    exact h.dollar List.mem_cons_self
  rw [read_eq_substitute (by rw [hstrip]; exact hne) (by rw [hstrip]; exact hdollar), hstrip,
    substitute_append vars h.dollar, Text.trim_append_of_start h.trimmed h.ne_nil]
  rfl

/-- Letters are folded in the same way behind every start. -/
theorem foldCase_eq_ok (h : Start front) {t u : Text} :
    foldCase (front ++ t) = .ok u ↔
      (t.count '"' = 0 ∨ t.count '"' = 2) ∧ u = front ++ Text.lowerOutside false t := by
  have hkeyword : Text.afterKeyword? "defm".toList (front ++ t) = none := by
    obtain ⟨c, rest, rfl⟩ := List.exists_cons_of_ne_nil h.ne_nil
    refine afterKeyword?_cons fun hd => h.keyword ?_
    exact congrArg some ((List.cons.inj h.lower).1.symm.trans hd)
  rw [Line.foldCase_eq_ok hkeyword, List.count_append, List.count_eq_zero_of_not_mem h.quote,
    Nat.zero_add, Text.lowerOutside_append, Text.lowerOutside_of_notMem h.quote, h.lower,
    Text.quotedAfter_of_notMem false h.quote]

theorem colon : Start [':'] where
  trimmed := Text.trimmed_singleton rfl
  ne_nil := List.cons_ne_nil _ _
  quote := by decide
  comment := by decide
  dollar := by decide
  lower := rfl
  keyword := by decide

theorem jump : Start "jp :".toList where
  trimmed := ⟨by rintro c ⟨⟩; rfl, by rintro c ⟨⟩; rfl⟩
  ne_nil := List.cons_ne_nil _ _
  quote := by decide
  comment := by decide
  dollar := by decide
  lower := rfl
  keyword := by decide

end Start

/-- A text that declares a label makes a jump that is read as a statement.  Both have the same text
behind the colon, and the name is that text without blanks around it. -/
theorem read_jump_of_label {name : Text} (h : Line.read vars (':' :: r) = .ok (.label name)) :
    ∃ rest, name = trim rest ∧ name ≠ [] ∧ Trimmed (':' :: rest) ∧ quotedAfter false rest = false ∧
      Line.read vars ("jp :".toList ++ r) = .ok (.statement ("jp :".toList ++ rest)) := by
  have hlabel : Line.read vars ([':'] ++ r) = .ok (.label name) := h
  rw [Start.colon.read] at hlabel
  obtain ⟨folded, hfold, hline⟩ := bind_eq_ok.mp hlabel
  obtain ⟨hcount, rfl⟩ := Start.colon.foldCase_eq_ok.mp hfold
  have hmeans : Means (':' :: Text.lowerOutside false (remainder vars r)) (.label name) :=
    ofFolded_eq_ok.mp hline
  cases hmeans with
  | label rest hne =>
    have hlower : Text.lower (':' :: Text.lowerOutside false (remainder vars r)) =
        Text.lower (':' :: remainder vars r) :=
      congrArg (':' :: ·) (Text.lower_lowerOutside false _)
    have htrimmed : Trimmed (':' :: remainder vars r) := Start.colon.trimmed_append vars r
    refine ⟨_, rfl, hne, htrimmed.of_lower hlower, ?_, ?_⟩
    · rw [Text.quotedAfter_false_iff, Text.count_lowerOutside]
      omega
    · have hkeyword : ∀ t, Text.afterKeyword? "org".toList ("jp :".toList ++ t) = none := fun t =>
        afterKeyword?_cons (c := 'j') (d := 'o') (by decide)
      rw [Start.jump.read, Start.jump.foldCase_eq_ok.mpr ⟨hcount, rfl⟩]
      exact ofFolded_eq_ok.mpr (.statement (by simp) (hkeyword _))

end Line

theorem Text.splitOutside_of_piece {separator : Char} {t : Text} (hseparator : separator ≠ '"')
    (h : Piece separator t) : splitOutside separator t = [t] := by
  have hjoin := splitOutside_intercalate hseparator (.last h.notMem)
  rwa [List.intercalate_singleton] at hjoin

/-- Behind a label the encoder takes no other operand. -/
theorem Encoding.eq_nil_of_label {table : OpcodeTable} {s : Statement} {encoding : Encoding}
    (h : ofStatement table s = .ok encoding) {name : Text} {operands : List Operand}
    (hoperands : s.operands = .label name :: operands) : operands = [] := by
  obtain ⟨hnames, -, -⟩ := ofStatement_eq_ok h
  cases operands with
  | nil => rfl
  | cons operand rest =>
    rw [referenceOf, hoperands, labelOf] at hnames
    split at hnames <;> cases hnames

/-! ## Operands behind a colon -/

namespace Operand

theorem Spells.label_of_colon {v : Vocabulary} {rest : Text} {operand : Operand}
    (h : Spells v (':' :: rest) operand) : operand = .label (trim rest) ∧ ':' ∉ trim rest := by
  cases h with
  | label rest hne hcolon => exact ⟨rfl, hcolon⟩
  | word t hquote hcolon hparentheses => exact absurd List.mem_cons_self hcolon

end Operand

namespace Statement

variable {v : Vocabulary} {rest : Text} {s : Statement}

/-- What follows `jp` is a list of operands. -/
theorem read_jump_eq_ok (hrest : Trimmed (':' :: rest)) :
    read v ("jp :".toList ++ rest) = .ok s ↔ s.mnemonic = "jp".toList ∧
      List.Forall₂ (Operand.Fills v) (Text.splitOutside ',' (':' :: rest)) s.operands := by
  have hword : ∀ c ∈ "jp".toList, isBlank c = false := Text.no_blank_of_all (by decide)
  have htrimmed : Trimmed ("jp :".toList ++ rest) :=
    (Text.trimmed_of_no_blank hword).append hrest (by decide) (List.cons_ne_nil _ _) [' ']
  have hsplit : Text.splitHead ("jp :".toList ++ rest) = ("jp".toList, ':' :: rest) := by
    have happend := Text.splitHead_append hword (Text.isBlank_head?_space (':' :: rest))
    rwa [Text.trim_cons_of_blank rfl, Text.trim_eq_self hrest] at happend
  obtain ⟨mnemonic, operands⟩ := s
  rw [read_eq_ok, Text.trim_eq_self htrimmed, hsplit]
  dsimp only
  refine and_congr_right fun hmnemonic => ?_
  have hother : mnemonic ≠ "defm".toList := by
    rw [hmnemonic]
    decide
  constructor
  · intro hlists
    cases hlists with
    | message hmessage _ => exact absurd hmessage hother
    | pieces _ _ hpieces => exact hpieces
  · intro hpieces
    exact .pieces hother (List.cons_ne_nil _ _) hpieces

/-- A jump to one label is read as such. -/
theorem read_jump_label (hrest : Trimmed (':' :: rest)) (hne : trim rest ≠ [])
    (hpiece : Text.Piece ',' (':' :: rest)) (hcolon : ':' ∉ trim rest) :
    read v ("jp :".toList ++ rest) = .ok ⟨"jp".toList, [.label (trim rest)]⟩ := by
  rw [read_jump_eq_ok hrest, Text.splitOutside_of_piece (by decide) hpiece]
  refine ⟨rfl, .cons ⟨?_, ?_⟩ .nil⟩
  · rw [Text.trim_eq_self hrest]
    exact List.cons_ne_nil _ _
  · rw [Text.trim_eq_self hrest]
    exact .label rest hne hcolon

/-- A jump behind whose colon the encoder finds no fault is a jump to one label. -/
theorem eq_of_read_jump (hrest : Trimmed (':' :: rest))
    (hs : read v ("jp :".toList ++ rest) = .ok s) {table : OpcodeTable} {encoding : Encoding}
    (hencoding : Encoding.ofStatement table s = .ok encoding) :
    s = ⟨"jp".toList, [.label (trim rest)]⟩ ∧ ':' ∉ trim rest ∧
    ',' ∉ outside false (':' :: rest) := by
  obtain ⟨hmnemonic, hpieces⟩ := (read_jump_eq_ok hrest).mp hs
  obtain ⟨hfirst, -⟩ := Text.notMem_outside_splitOutsideFrom ',' false (':' :: rest)
  have hjoin := Text.intercalate_splitOutside ',' (':' :: rest)
  have hcons : Text.splitOutside ',' (':' :: rest) =
      (':' :: (Text.splitOutsideFrom ',' false rest).1) ::
        (Text.splitOutsideFrom ',' false rest).2 := rfl
  rw [hcons] at hpieces hjoin
  obtain ⟨operand, operands, ⟨-, hspells⟩, hlater, hoperands⟩ :=
    List.forall₂_cons_left_iff.mp hpieces
  -- the first operand is a label, so it has to be the last
  have hlabel : ∃ name, operand = .label name := by
    have htrim := Text.trim_append_of_start Line.Start.colon.trimmed (List.cons_ne_nil _ _)
      (Text.splitOutsideFrom ',' false rest).1
    rw [List.singleton_append] at htrim
    rw [htrim] at hspells
    exact ⟨_, hspells.label_of_colon.1⟩
  obtain ⟨name, rfl⟩ := hlabel
  obtain rfl := Encoding.eq_nil_of_label hencoding hoperands
  rw [List.forall₂_nil_right_iff.mp hlater, List.intercalate_singleton] at hjoin
  have hfirst' : ',' ∉ outside false (':' :: (Text.splitOutsideFrom ',' false rest).1) := hfirst
  rw [hjoin] at hfirst' hspells
  rw [Text.trim_eq_self hrest] at hspells
  obtain ⟨hname, hcolon⟩ := hspells.label_of_colon
  refine ⟨?_, hcolon, hfirst'⟩
  rw [← hname, ← hoperands, ← hmnemonic]

end Statement

/-! ## Jumps and declarations -/

namespace InstructionSet

/-- A jump to a label waits for the address of that label. -/
theorem ofStatement_jump (name : Text) :
    Encoding.ofStatement table ⟨"jp".toList, [.label name]⟩ =
      .ok ⟨[0xC3, 0, 0], .numbered 1 .word, some ⟨name, .absolute⟩⟩ := by
  have hreference : Encoding.referenceOf vocabulary ⟨"jp".toList, [.label name]⟩ =
      .ok (some ⟨name, .absolute⟩) := rfl
  have hrule : table.rule? "jp *".toList = some ⟨[0xC3], .word⟩ := by decide +kernel
  exact ofStatement_of_rule hreference rfl hrule

end InstructionSet

/-- A name that a jump can refer to: it holds no colon, and no comma after an even number of
quotes. -/
def Line.Referable (name : Text) : Prop :=
  ':' ∉ name ∧ ∀ before after, name = before ++ ',' :: after → before.count '"' % 2 = 1

theorem Line.referable_iff {name : Text} :
    Referable name ↔ ':' ∉ name ∧ ',' ∉ outside false name := by
  rw [Referable, Text.mem_outside_iff_count (by decide)]
  simp only [not_exists, not_and, Nat.mod_two_ne_zero]

namespace Session

open InstructionSet (table)

/-- If a text behind a colon declares a label, a jump with that text behind its colon refers to the
same label if a jump can refer to such a name, and is refused if not. -/
theorem reference_agrees_with_declaration (settings : Settings) (s : Session) (r name : Text)
    (h : Line.read s.bindings (':' :: r) = .ok (.label name)) :
    ((∃ statement encoding,
        s.interpret ⟨table, settings⟩ ("jp :".toList ++ r) = .ok (.emit statement encoding) ∧
        encoding.reference = some ⟨name, .absolute⟩) ↔ Line.Referable name) ∧
    (¬ Line.Referable name →
      ∃ fault, s.interpret ⟨table, settings⟩ ("jp :".toList ++ r) = .error fault) := by
  obtain ⟨rest, rfl, hne, htrimmed, hclosed, hjump⟩ := Line.read_jump_of_label h
  have hcomma : ',' ∈ outside false (':' :: rest) ↔ ',' ∈ outside false (trim rest) := by
    change ',' ∈ ':' :: outside false rest ↔ _
    rw [List.mem_cons, or_iff_right (by decide)]
    exact ⟨fun hmem =>
      Text.mem_outside_of_squeeze (Text.squeeze_trim hclosed).symm hmem (by decide),
      fun hmem => Text.outside_trim_subset rest hmem⟩
  have hrefers : Line.Referable (trim rest) → s.interpret ⟨table, settings⟩ ("jp :".toList ++ r) =
      .ok (.emit ⟨"jp".toList, [.label (trim rest)]⟩
        ⟨[0xC3, 0, 0], .numbered 1 .word, some ⟨trim rest, .absolute⟩⟩) := by
    intro hname
    obtain ⟨hcolon, hnone⟩ := Line.referable_iff.mp hname
    have hpiece : Text.Piece ',' (':' :: rest) := ⟨fun hmem => hnone (hcomma.mp hmem), hclosed⟩
    exact interpret_eq_ok.mpr (.emit hjump (Statement.read_jump_label htrimmed hne hpiece hcolon)
      (InstructionSet.ofStatement_jump _))
  have hreferable : ∀ step, s.interpret ⟨table, settings⟩ ("jp :".toList ++ r) = .ok step →
      Line.Referable (trim rest) := by
    intro step hstep
    cases interpret_eq_ok.mp hstep with
    | emit hline hstatement hencoding =>
      rw [hjump] at hline
      cases hline
      obtain ⟨-, hcolon, hnone⟩ := Statement.eq_of_read_jump htrimmed hstatement hencoding
      exact Line.referable_iff.mpr ⟨hcolon, fun hmem => hnone (hcomma.mpr hmem)⟩
    | nothing hline | bind hline | load hline | declare hline _ =>
      rw [hjump] at hline
      cases hline
  refine ⟨⟨?_, fun hname => ⟨_, _, hrefers hname, rfl⟩⟩, fun hnot => ?_⟩
  · rintro ⟨statement, encoding, hstep, -⟩
    exact hreferable _ hstep
  · cases hstep : s.interpret ⟨table, settings⟩ ("jp :".toList ++ r) with
    | error fault => exact ⟨fault, rfl⟩
    | ok step => exact absurd (hreferable step hstep) hnot

/-- A session in which a variable is defined. -/
def namingSession : Session :=
  { start with bindings := Dictionary.empty.insert "$x".toList "End".toList }

/-- A name made of a variable, with a quoted comma and a comment behind it, is declared and referred
to; one with a comma that is not quoted is declared only. -/
theorem namingSession_agrees :
    (Line.read namingSession.bindings ":  Lo$x\"A,B\" ; here".toList =
      .ok (.label "loend\"A,B\"".toList)) ∧
    (∃ statement encoding,
      namingSession.interpret sampleSetup "jp :  Lo$x\"A,B\" ; here".toList =
        .ok (.emit statement encoding) ∧
      encoding.reference = some ⟨"loend\"A,B\"".toList, .absolute⟩) ∧
    (Line.read namingSession.bindings ":a,b".toList = .ok (.label "a,b".toList)) ∧
    ∃ fault, namingSession.interpret sampleSetup "jp :a,b".toList = .error fault := by
  have hquoted : Line.read namingSession.bindings (':' :: "  Lo$x\"A,B\" ; here".toList) =
      .ok (.label "loend\"A,B\"".toList) := by
    decide +kernel
  have hplain : Line.read namingSession.bindings (':' :: "a,b".toList) =
      .ok (.label "a,b".toList) := by
    decide +kernel
  obtain ⟨hquoted', -⟩ := reference_agrees_with_declaration {} namingSession _ _ hquoted
  obtain ⟨-, hplain'⟩ := reference_agrees_with_declaration {} namingSession _ _ hplain
  refine ⟨hquoted, hquoted'.mpr ?_, hplain, hplain' ?_⟩
  · exact Line.referable_iff.mpr ⟨by decide, by decide⟩
  · rw [Line.referable_iff]
    decide

end Session

end Z80
