import Z80.Proofs.MachineCode
import Z80.Proofs.Statement

/-!
# Statements that name a label

The instruction set takes a label as the last operand of a jump, alone or after a condition, and
nowhere else.  Which conditions a jump has is a matter of its mnemonic.  A statement with a label
that has another form is refused, because the label is out of place or because there is no such
instruction.
-/

namespace Z80

/-! ## Labels among operands -/

namespace Encoding

variable {table : OpcodeTable} {v : Vocabulary} {s : Statement} {name : Text}

theorem labelOf_append {front : List Operand} (hfront : ∀ other, .label other ∉ front) :
    labelOf s (front ++ [.label name]) = .ok (some name) := by
  induction front with
  | nil => rfl
  | cons operand rest ih =>
    have hrest := ih fun other hmem => hfront other (List.mem_cons_of_mem _ hmem)
    cases operand with
    | label other => exact absurd List.mem_cons_self (hfront other)
    | _ => exact hrest

/-- A label that operands name is the last of them; any other is out of place. -/
theorem labelOf_cases (s : Statement) (operands : List Operand) :
    labelOf s operands = .error (.misplacedLabel s.text) ∨ labelOf s operands = .ok none ∨
      ∃ front label, labelOf s operands = .ok (some label) ∧
        operands = front ++ [.label label] := by
  fun_induction labelOf s operands with
  | case1 => exact .inr (.inl rfl)
  | case2 label => exact .inr (.inr ⟨[], label, rfl, rfl⟩)
  | case3 => exact .inl rfl
  | case4 operand rest _ _ ih =>
    rcases ih with ih | ih | ⟨front, label, ih, hrest⟩
    · exact .inl ih
    · exact .inr (.inl ih)
    · exact .inr (.inr ⟨operand :: front, label, ih, congrArg (operand :: ·) hrest⟩)

/-- A statement that names a label makes a reference to it, or is refused because the label is out
of place. -/
theorem referenceOf_cases (v : Vocabulary) (hlabel : .label name ∈ s.operands) :
    referenceOf v s = .error (.misplacedLabel s.text) ∨
      ∃ front jump, referenceOf v s = .ok (some ⟨name, jump⟩) ∧ v.jump? s.mnemonic = some jump ∧
        s.operands = front ++ [.label name] := by
  rw [referenceOf]
  split
  · exact .inl rfl
  · rcases labelOf_cases s s.operands with h | h | ⟨front, label, h, hoperands⟩
    · rw [h]
      exact .inl rfl
    · cases (label_mem_iff h name).mp hlabel
    · obtain rfl : label = name := Option.some.inj ((label_mem_iff h name).mp hlabel)
      rw [h]
      dsimp only
      cases v.jump? s.mnemonic with
      | none => exact .inl rfl
      | some jump => exact .inr ⟨front, jump, rfl, rfl, hoperands⟩

end Encoding

/-- The operands that stand for no number: registers, conditions that are no registers, and
registers in parentheses. -/
def Vocabulary.plainOperands (v : Vocabulary) : List Operand :=
  v.registers.map .register ++ (v.conditions.filter (!v.isRegister ·)).map .condition ++
    v.registers.map .indirect

theorem Operand.Spells.mem_plainOperands {v : Vocabulary} {t : Text} {operand : Operand}
    (h : Spells v t operand) (hnumeric : operand.isNumeric = false) :
    operand ∈ v.plainOperands := by
  cases h with
  | label rest => cases hnumeric
  | quoted rest => cases hnumeric
  | parenthesized inner =>
    rw [inParentheses] at hnumeric ⊢
    split at hnumeric
    · next hregister =>
      rw [if_pos hregister]
      simpa [Vocabulary.plainOperands, Vocabulary.isRegister] using hregister
    · cases hnumeric
  | word t =>
    rw [ofWord] at hnumeric ⊢
    split at hnumeric
    · next hregister =>
      rw [if_pos hregister]
      simpa [Vocabulary.plainOperands, Vocabulary.isRegister] using hregister
    · next hregister =>
      rw [if_neg hregister]
      split at hnumeric
      · next hcondition =>
        rw [if_pos hcondition]
        simpa [Vocabulary.plainOperands, Vocabulary.isCondition, hregister] using hcondition
      · cases hnumeric

/-! ## Forms of jumps -/

namespace InstructionSet

/-- A mnemonic that takes a label, what it makes of it, and the conditions that may stand before the
label. -/
structure JumpForm where
  mnemonic : Text
  jump : Jump
  conditions : List Text
  deriving DecidableEq

def jumpForms : List JumpForm :=
  [⟨"jp".toList, .absolute, ["nz", "z", "nc", "c", "po", "pe", "p", "m"].map String.toList⟩,
    ⟨"call".toList, .absolute, ["nz", "z", "nc", "c", "po", "pe", "p", "m"].map String.toList⟩,
    ⟨"jr".toList, .relative, ["nz", "z", "nc", "c"].map String.toList⟩,
    ⟨"djnz".toList, .relative, []⟩]

/-- What may stand before the label: nothing, or one condition.  The word `c` is read as the
register. -/
def JumpForm.fronts (form : JumpForm) : List (List Operand) :=
  [] :: form.conditions.map fun word => [Operand.ofWord vocabulary word]

/-- Whether a statement is a jump to a label, in the form that its mnemonic has. -/
def JumpsTo (s : Statement) (reference : Reference) : Prop :=
  ∃ form ∈ jumpForms, s.mnemonic = form.mnemonic ∧ reference.jump = form.jump ∧
    ∃ front ∈ form.fronts, s.operands = front ++ [.label reference.label]

instance (s : Statement) (reference : Reference) : Decidable (JumpsTo s reference) :=
  inferInstanceAs (Decidable (∃ form ∈ jumpForms,
    s.mnemonic = form.mnemonic ∧ reference.jump = form.jump ∧
    ∃ front ∈ form.fronts, s.operands = front ++ [.label reference.label]))

/-! ### The table -/

theorem fixed?_of_colon {t : Text} (h : ':' ∈ t) : table.fixed? t = none := by
  have hkeys : ∀ e ∈ table.fixed, ':' ∉ e.1 := by decide +kernel
  rw [OpcodeTable.fixed?, List.lookup_eq_none_iff]
  intro e he
  rw [bne_iff_ne]
  rintro rfl
  exact hkeys e he h

/-- No instruction has more than two operands. -/
theorem count_comma_of_rule {key : Text} {rule : Rule} (h : table.rule? key = some rule) :
    key.count ',' ≤ 1 := by
  have hkeys : ∀ e ∈ table.rules, e.1.count ',' ≤ 1 := by decide +kernel
  exact hkeys _ (mem_of_lookup h)

theorem exists_form_of_jump {mnemonic : Text} {jump : Jump}
    (h : vocabulary.jump? mnemonic = some jump) :
    ∃ form ∈ jumpForms, mnemonic = form.mnemonic ∧ jump = form.jump := by
  simp only [Vocabulary.jump?, List.contains_iff_mem] at h
  split at h
  · next hmem =>
    cases h
    simp [vocabulary, jumpForms] at hmem ⊢
    exact hmem
  · split at h
    · next hmem =>
      cases h
      simp [vocabulary, jumpForms] at hmem ⊢
      exact hmem
    · cases h

/-- Each form of a jump has a rule with an opcode of one byte. -/
theorem exists_rule_of_form {form : JumpForm} (hform : form ∈ jumpForms) {front : List Operand}
    (hfront : front ∈ form.fronts) :
    ∃ opcode, table.rule? (Statement.join ⟨form.mnemonic, front ++ [.label []]⟩ Operand.star) =
      some ⟨[opcode], form.jump.width⟩ := by
  have hrules : ∀ form ∈ jumpForms, ∀ front ∈ form.fronts,
      ((table.rule? (Statement.join ⟨form.mnemonic, front ++ [.label []]⟩ Operand.star)).any
        fun rule => rule.lead.length = 1 ∧ rule.width = form.jump.width) = true := by
    decide +kernel
  have hany := hrules form hform front hfront
  generalize table.rule? (Statement.join ⟨form.mnemonic, front ++ [.label []]⟩ Operand.star) = found
    at hany ⊢
  cases found with
  | none => cases hany
  | some rule =>
    obtain ⟨hlength, hwidth⟩ := of_decide_eq_true hany
    obtain ⟨opcode, hlead⟩ := List.length_eq_one_iff.mp hlength
    exact ⟨opcode, by rw [← hlead, ← hwidth]⟩

/-- A jump with one operand before the number has one of its conditions there. -/
theorem mem_fronts_of_rule {form : JumpForm} (hform : form ∈ jumpForms) {operand : Operand}
    (hoperand : operand ∈ vocabulary.plainOperands)
    (h : (table.rule?
      (Statement.join ⟨form.mnemonic, [operand, .label []]⟩ Operand.star)).isSome = true) :
    [operand] ∈ form.fronts := by
  have hfronts : ∀ form ∈ jumpForms, ∀ operand ∈ vocabulary.plainOperands,
      (table.rule?
        (Statement.join ⟨form.mnemonic, [operand, .label []]⟩ Operand.star)).isSome = true →
        [operand] ∈ form.fronts := by
    decide +kernel
  exact hfronts form hform operand hoperand h

/-! ### Statements -/

variable {s : Statement} {name : Text} {encoding : Encoding}

theorem colon_mem_text (hlabel : .label name ∈ s.operands) : ':' ∈ s.text := by
  have hne : s.operands ≠ [] := List.ne_nil_of_mem hlabel
  rw [Statement.text_eq, if_neg hne]
  refine List.mem_append_right _ (List.mem_cons_of_mem _ ?_)
  exact Text.mem_intercalate _ (List.mem_map_of_mem hlabel) List.mem_cons_self

/-- The starred text of a statement does not depend on the name of its label. -/
theorem join_star_label (mnemonic : Text) (front : List Operand) (name : Text) :
    Statement.join ⟨mnemonic, front ++ [.label name]⟩ Operand.star =
      Statement.join ⟨mnemonic, front ++ [.label []]⟩ Operand.star := by
  simp [Statement.join, Operand.star]

theorem placeholder_of_jump {jump : Jump} (h : vocabulary.jump? s.mnemonic = some jump) :
    Encoding.placeholder table s = Encoding.instruction table s := by
  obtain ⟨form, hform, hmnemonic, -⟩ := exists_form_of_jump h
  have hdata : ∀ form ∈ jumpForms, form.mnemonic ≠ "defb".toList ∧
      form.mnemonic ≠ "defm".toList := by
    decide
  rw [Encoding.placeholder, hmnemonic, if_neg (hdata form hform).1, if_neg (hdata form hform).2]

/-- A jump with a rule for its text is encoded by that rule, with zeros for its label. -/
theorem ofStatement_of_rule {reference : Reference} {key : Text} {opcode : UInt8}
    (hreference : Encoding.referenceOf vocabulary s = .ok (some reference))
    (hstarred : s.starred? = some (key, .label reference.label))
    (hrule : table.rule? key = some ⟨[opcode], reference.jump.width⟩) :
    Encoding.ofStatement table s =
      .ok ⟨opcode :: List.replicate reference.jump.width.size 0, .numbered 1 reference.jump.width,
        some reference⟩ := by
  obtain ⟨hjump, hlabel⟩ := (Encoding.referenceOf_eq_ok hreference reference).mp rfl
  have hnumber : reference.jump.width.encode 0 =
      .ok (List.replicate reference.jump.width.size 0) := by
    cases reference.jump <;> rfl
  have hplaceholder : Encoding.placeholder table s =
      .ok ⟨opcode :: List.replicate reference.jump.width.size 0,
        .numbered 1 reference.jump.width, none⟩ := by
    rw [placeholder_of_jump hjump, Encoding.instruction,
      fixed?_of_colon (colon_mem_text hlabel), hstarred]
    dsimp only [Option.bind_some]
    rw [hrule]
    change (reference.jump.width.encode 0 >>= _) = _
    rw [hnumber]
    rfl
  have hnames : Encoding.referenceOf table.vocabulary s = .ok (some reference) := hreference
  rw [Encoding.ofStatement, hnames, hplaceholder]
  exact if_pos rfl

/-- Every jump to a label is encoded. -/
theorem ofStatement_of_jumpsTo {reference : Reference} (h : JumpsTo s reference) :
    ∃ opcode, Encoding.ofStatement table s =
      .ok ⟨opcode :: List.replicate reference.jump.width.size 0, .numbered 1 reference.jump.width,
        some reference⟩ := by
  obtain ⟨label, jump⟩ := reference
  obtain ⟨mnemonic, operands⟩ := s
  obtain ⟨form, hform, rfl, rfl, front, hfront, rfl⟩ := h
  obtain ⟨opcode, hrule⟩ := exists_rule_of_form hform hfront
  have hword : ∀ form ∈ jumpForms,
      ':' ∉ form.mnemonic ∧ vocabulary.jump? form.mnemonic = some form.jump := by
    decide
  have hplain : ∀ form ∈ jumpForms, ∀ front ∈ form.fronts, ∀ operand ∈ front,
      operand.isNumeric = false := by
    decide
  have hnoLabel : ∀ other, .label other ∉ front := fun other hmem =>
    absurd (hplain form hform front hfront _ hmem) nofun
  refine ⟨opcode, ofStatement_of_rule ?_ ?_ hrule⟩
  · rw [Encoding.referenceOf, if_neg (hword form hform).1, Encoding.labelOf_append hnoLabel]
    dsimp only
    rw [(hword form hform).2]
  · have hnone : front.filter Operand.isNumeric = [] := by
      simpa [List.filter_eq_nil_iff] using hplain form hform front hfront
    rw [Encoding.starred?_eq_some, List.filter_append, hnone]
    exact ⟨rfl, join_star_label _ _ _⟩

/-- An operand that is read before the only number of a statement is a register or a condition. -/
theorem mem_plainOperands_of_read {line : Text} (hread : Statement.read vocabulary line = .ok s)
    (hlabel : .label name ∈ s.operands) {operand : Operand} (hoperand : operand ∈ s.operands)
    (hnumeric : operand.isNumeric = false) : operand ∈ vocabulary.plainOperands := by
  obtain ⟨rest, -, -, -, hlists⟩ := Statement.exists_of_read hread
  generalize Text.trim rest = listed at hlists
  generalize s.operands = operands at hlists hlabel hoperand
  cases hlists with
  | none => cases hoperand
  | message => simp at hlabel
  | pieces _ _ hpieces =>
    obtain ⟨piece, -, hfills⟩ := exists_of_mem_right hpieces hoperand
    exact hfills.2.mem_plainOperands hnumeric

theorem length_operands_le_of_rule {rule : Rule}
    (h : table.rule? (s.join Operand.star) = some rule) :
    s.operands.length ≤ 2 := by
  have hcommas := count_comma_of_rule h
  have hpieces := Text.length_le_count_intercalate ',' (s.operands.map Operand.star)
  rw [List.length_map] at hpieces
  rw [Statement.join] at hcommas
  split at hcommas
  · next hempty =>
    rw [List.isEmpty_iff.mp hempty]
    exact Nat.zero_le 2
  · rw [List.count_append, List.count_cons_of_ne (by decide)] at hcommas
    omega

/-- A statement with a label that is encoded is a jump to that label. -/
theorem jumpsTo_of_ofStatement {line : Text} (hread : Statement.read vocabulary line = .ok s)
    (hlabel : .label name ∈ s.operands) (h : Encoding.ofStatement table s = .ok encoding) :
    ∃ jump, JumpsTo s ⟨name, jump⟩ ∧ encoding.reference = some ⟨name, jump⟩ := by
  obtain ⟨hnames, -, -⟩ := Encoding.ofStatement_eq_ok h
  rcases Encoding.referenceOf_cases table.vocabulary hlabel with
    hmisplaced | ⟨front, jump, hreference, hjump, hoperands⟩
  · rw [hmisplaced] at hnames
    cases hnames
  have hsome : encoding.reference = some ⟨name, jump⟩ :=
    Except.ok.inj (hnames.symm.trans hreference)
  obtain ⟨form, hform, hmnemonic, rfl⟩ := exists_form_of_jump hjump
  obtain ⟨key, opcode, hstarred, hrule, -⟩ := Encoding.exists_rule_of_reference h hsome
  obtain ⟨hfilter, rfl⟩ := Encoding.starred?_eq_some.mp hstarred
  have hlength : front.length ≤ 1 := by
    have htwo := length_operands_le_of_rule hrule
    rw [hoperands, List.length_append, List.length_singleton] at htwo
    exact Nat.le_of_succ_le_succ htwo
  have hplain : ∀ operand ∈ front, operand ∈ vocabulary.plainOperands := by
    intro operand hoperand
    refine mem_plainOperands_of_read hread hlabel ?_ ?_
    · rw [hoperands]
      exact List.mem_append_left _ hoperand
    · rw [hoperands, List.filter_append] at hfilter
      have hnone : front.filter Operand.isNumeric = [] := List.append_left_eq_self.mp hfilter
      simpa using List.filter_eq_nil_iff.mp hnone operand hoperand
  obtain ⟨mnemonic, operands⟩ := s
  subst hmnemonic hoperands
  refine ⟨form.jump, ⟨form, hform, rfl, rfl, front, ?_, rfl⟩, hsome⟩
  match front, hlength with
  | [], _ => exact List.mem_cons_self
  | [operand], _ =>
    rw [join_star_label] at hrule
    exact mem_fronts_of_rule hform (hplain operand List.mem_cons_self) (hrule ▸ rfl)

/-- A statement with a label is refused because the label is out of place, or because there is no
such instruction. -/
theorem faults_of_label (hlabel : .label name ∈ s.operands) :
    FaultsIn (fun fault => fault = .misplacedLabel s.text ∨ fault = .unrecognizedInstruction s.text)
      (Encoding.ofStatement table s) := by
  rcases Encoding.referenceOf_cases table.vocabulary hlabel with
    hmisplaced | ⟨front, jump, hreference, hjump, -⟩
  · rw [Encoding.ofStatement, hmisplaced]
    exact .error (.inl rfl)
  rw [Encoding.ofStatement, hreference]
  refine .bind (.ok _) fun reference? hok => ?_
  cases hok
  refine .bind ?_ fun body _ => ?_
  · rw [placeholder_of_jump hjump, Encoding.instruction, fixed?_of_colon (colon_mem_text hlabel)]
    dsimp only
    split
    · exact .error (.inr rfl)
    · next rule _ hfound =>
      obtain ⟨⟨key, operand⟩, hkey, hmap⟩ := Option.bind_eq_some_iff.mp hfound
      obtain ⟨_, -, heq⟩ := Option.map_eq_some_iff.mp hmap
      cases heq
      obtain rfl := Encoding.operand_eq_label hkey hlabel
      -- the value of a label is zero, which fits into any width
      refine .bind (.ok 0) fun value hvalue => ?_
      cases hvalue
      cases rule.width <;> exact .ok _
  · dsimp only
    split
    · exact .ok _
    · exact .error (.inl rfl)

/-- A statement with a label is encoded if and only if it is a jump to that label.  Its code is then
an opcode of one byte and zeros, and refers to the label.  Otherwise the label is out of place, or
there is no such instruction. -/
theorem label_encoded_iff_jump {line : Text} (hread : Statement.read vocabulary line = .ok s)
    (hlabel : .label name ∈ s.operands) :
    ((∃ encoding, Encoding.ofStatement table s = .ok encoding) ↔ ∃ jump, JumpsTo s ⟨name, jump⟩) ∧
    (∀ encoding, Encoding.ofStatement table s = .ok encoding →
      ∃ jump opcode, JumpsTo s ⟨name, jump⟩ ∧ encoding.reference = some ⟨name, jump⟩ ∧
        (jump = .absolute ∧ encoding.bytes = [opcode, 0, 0] ∨
          jump = .relative ∧ encoding.bytes = [opcode, 0])) ∧
    ∀ fault, Encoding.ofStatement table s = .error fault →
      fault = .misplacedLabel s.text ∨ fault = .unrecognizedInstruction s.text := by
  refine ⟨⟨?_, ?_⟩, ?_, faults_of_label hlabel⟩
  · rintro ⟨encoding, h⟩
    obtain ⟨jump, hjump, -⟩ := jumpsTo_of_ofStatement hread hlabel h
    exact ⟨jump, hjump⟩
  · rintro ⟨jump, hjump⟩
    obtain ⟨opcode, h⟩ := ofStatement_of_jumpsTo hjump
    exact ⟨_, h⟩
  · intro encoding h
    obtain ⟨jump, hjump, hreference⟩ := jumpsTo_of_ofStatement hread hlabel h
    obtain ⟨opcode, hbytes⟩ := Encoding.bytes_of_reference h hreference
    refine ⟨jump, opcode, hjump, hreference, ?_⟩
    cases jump with
    | absolute => exact .inl ⟨rfl, hbytes⟩
    | relative => exact .inr ⟨rfl, hbytes⟩

/-- The word `c` before a label is read as a register and stands for a condition; a relative jump
has no condition `po`. -/
theorem conditionalJumps_encoded :
    Statement.read vocabulary "jp c , :done".toList =
      .ok ⟨"jp".toList, [.register "c".toList, .label "done".toList]⟩ ∧
    Statement.read vocabulary "jr po,:done".toList =
      .ok ⟨"jr".toList, [.condition "po".toList, .label "done".toList]⟩ ∧
    (∃ encoding, Encoding.ofStatement table
      ⟨"jp".toList, [.register "c".toList, .label "done".toList]⟩ = .ok encoding) ∧
    ¬ ∃ encoding, Encoding.ofStatement table
      ⟨"jr".toList, [.condition "po".toList, .label "done".toList]⟩ = .ok encoding := by
  have habsolute : Statement.read vocabulary "jp c , :done".toList =
      .ok ⟨"jp".toList, [.register "c".toList, .label "done".toList]⟩ := by
    decide +kernel
  have hrelative : Statement.read vocabulary "jr po,:done".toList =
      .ok ⟨"jr".toList, [.condition "po".toList, .label "done".toList]⟩ := by
    decide +kernel
  refine ⟨habsolute, hrelative, ?_, ?_⟩
  · exact (label_encoded_iff_jump habsolute (List.mem_cons_of_mem _ List.mem_cons_self)).1.mpr
      ⟨.absolute, by decide⟩
  · rw [(label_encoded_iff_jump hrelative (List.mem_cons_of_mem _ List.mem_cons_self)).1]
    rintro ⟨jump, hjump⟩
    cases jump with
    | absolute => revert hjump; decide
    | relative => revert hjump; decide

end InstructionSet

end Z80
