import Z80.Encoding
import Z80.Proofs.Computation
import Z80.Proofs.Word

/-!
# What an encoding is made of

The ways in which the encoder accepts a statement.  An instruction comes from a fixed entry of the
table or from a rule and a number; a statement that names a label comes from a rule with an opcode
of one byte, and its other bytes are zero.
-/

namespace Z80.Encoding

variable {table : OpcodeTable} {s : Statement} {encoding : Encoding}

/-! ## Instructions -/

/-- An instruction is an entry, or a rule with the value of its number. -/
theorem instruction_eq_ok (h : instruction table s = .ok encoding) :
    (∃ bytes, table.fixed? s.text = some bytes ∧ encoding = ⟨bytes, .fixed, none⟩) ∨
      ∃ key operand rule value, s.starred? = some (key, operand) ∧ table.rule? key = some rule ∧
        valueOf operand = .ok value ∧
        encoding = ⟨rule.lead ++ littleEndian rule.width.size value,
          .numbered rule.lead.length rule.width, none⟩ := by
  rw [instruction] at h
  split at h
  · next bytes hbytes =>
    cases h
    exact .inl ⟨bytes, hbytes, rfl⟩
  · split at h
    · cases h
    · next rule _ hfound =>
      obtain ⟨⟨key, operand⟩, hkey, hmap⟩ := Option.bind_eq_some_iff.mp hfound
      obtain ⟨_, hrule, heq⟩ := Option.map_eq_some_iff.mp hmap
      cases heq
      obtain ⟨value, hvalue, h⟩ := bind_eq_ok.mp h
      obtain ⟨number, hnumber, h⟩ := bind_eq_ok.mp h
      cases h
      obtain ⟨-, rfl⟩ := Width.encode_eq_ok hnumber
      exact .inr ⟨key, operand, rule, value, hkey, hrule, hvalue, rfl⟩

theorem reference_instruction (h : instruction table s = .ok encoding) :
    encoding.reference = none := by
  rcases instruction_eq_ok h with ⟨bytes, -, rfl⟩ | ⟨key, operand, rule, value, -, -, -, rfl⟩ <;>
    rfl

/-- What is no instruction is data. -/
theorem placeholder_eq_ok (h : placeholder table s = .ok encoding) :
    encoding.form = .data ∧ encoding.reference = none ∨ instruction table s = .ok encoding := by
  rw [placeholder] at h
  split at h
  · rw [dataBytes] at h
    split at h
    · cases h
    · obtain ⟨bytes, -, h⟩ := bind_eq_ok.mp h
      cases h
      exact .inl ⟨rfl, rfl⟩
  · split at h
    · rw [dataText] at h
      split at h
      · cases h
      · cases h
        exact .inl ⟨rfl, rfl⟩
    · exact .inr h

theorem reference_placeholder (h : placeholder table s = .ok encoding) :
    encoding.reference = none := by
  rcases placeholder_eq_ok h with ⟨-, hnone⟩ | hinstruction
  · exact hnone
  · exact reference_instruction hinstruction

/-! ## Labels -/

/-- The label that operands name is the only one among them. -/
theorem label_mem_iff {operands : List Operand} {label? : Option Text}
    (h : labelOf s operands = .ok label?) (name : Text) :
    .label name ∈ operands ↔ label? = some name := by
  fun_induction labelOf s operands with
  | case1 =>
    cases h
    simp
  | case2 label =>
    cases h
    simp [eq_comm]
  | case3 => cases h
  | case4 operand rest hlast hfirst ih =>
    have hother : operand ≠ .label name := by
      rintro rfl
      cases rest with
      | nil => exact hlast name rfl rfl
      | cons next rest => exact hfirst name next rest rfl rfl
    rw [List.mem_cons, or_iff_right hother.symm, ih h]

theorem labelOf_eq_none {operands : List Operand} (h : ∀ name, Operand.label name ∉ operands) :
    labelOf s operands = .ok none := by
  fun_induction labelOf s operands with
  | case1 => rfl
  | case2 name => exact absurd List.mem_cons_self (h name)
  | case3 name _ _ => exact absurd List.mem_cons_self (h name)
  | case4 operand rest _ _ ih => exact ih fun name hmem => h name (List.mem_cons_of_mem _ hmem)

/-- A reference is made by a statement that names a label, in the way of its mnemonic. -/
theorem referenceOf_eq_ok {v : Vocabulary} {reference? : Option Reference}
    (h : referenceOf v s = .ok reference?) (reference : Reference) :
    reference? = some reference ↔
      v.jump? s.mnemonic = some reference.jump ∧ .label reference.label ∈ s.operands := by
  rw [referenceOf] at h
  split at h
  · cases h
  · split at h
    · cases h
    · next hlabel =>
      cases h
      rw [label_mem_iff hlabel]
      simp
    · next label hlabel =>
      rw [label_mem_iff hlabel]
      split at h
      · next jump hjump =>
        cases h
        rw [hjump]
        constructor
        · rintro ⟨⟩
          exact ⟨rfl, rfl⟩
        · rintro ⟨⟨⟩, ⟨⟩⟩
          rfl
      · cases h

theorem mem_of_referenceOf {v : Vocabulary} {reference : Reference}
    (h : referenceOf v s = .ok (some reference)) : .label reference.label ∈ s.operands :=
  ((referenceOf_eq_ok h reference).mp rfl).2

theorem label_notMem_of_referenceOf {v : Vocabulary} (h : referenceOf v s = .ok none)
    (name : Text) :
    .label name ∉ s.operands := by
  rw [referenceOf] at h
  split at h
  · cases h
  · split at h
    · cases h
    · next hlabel =>
      rw [label_mem_iff hlabel]
      exact nofun
    · split at h <;> cases h

theorem starred?_eq_some {key : Text} {operand : Operand} :
    s.starred? = some (key, operand) ↔
      s.operands.filter Operand.isNumeric = [operand] ∧ s.join Operand.star = key := by
  rw [Statement.starred?]
  split
  · next operand' hfilter =>
    rw [hfilter]
    simp [and_comm]
  · next hfilter =>
    refine ⟨nofun, fun h => absurd h.1 (hfilter operand)⟩

/-- A label is the only number of a statement that has one number. -/
theorem operand_eq_label {key name : Text} {operand : Operand}
    (hkey : s.starred? = some (key, operand)) (hmem : .label name ∈ s.operands) :
    operand = .label name := by
  have hnumeric : Operand.label name ∈ s.operands.filter Operand.isNumeric :=
    List.mem_filter.mpr ⟨hmem, rfl⟩
  rw [(starred?_eq_some.mp hkey).1] at hnumeric
  exact (List.mem_singleton.mp hnumeric).symm

/-! ## Statements -/

/-- The encoding of a statement is the one with zero for a label, and the reference of the
statement.  If there is a reference, there is an opcode of one byte before it. -/
theorem ofStatement_eq_ok (h : ofStatement table s = .ok encoding) :
    referenceOf table.vocabulary s = .ok encoding.reference ∧
      placeholder table s = .ok { encoding with reference := none } ∧
      ∀ reference, encoding.reference = some reference →
        encoding.form = .numbered 1 reference.jump.width := by
  obtain ⟨reference?, hreference, h⟩ := bind_eq_ok.mp h
  obtain ⟨body, hbody, h⟩ := bind_eq_ok.mp h
  have hnone := reference_placeholder hbody
  obtain ⟨bytes, form, reference⟩ := body
  cases hnone
  cases reference? with
  | none =>
    cases h
    refine ⟨hreference, hbody, ?_⟩
    intro reference hsome
    cases hsome
  | some reference =>
    dsimp only at h
    split at h
    · next hform =>
      cases h
      refine ⟨hreference, hbody, ?_⟩
      intro reference' hsome
      cases hsome
      exact hform
    · cases h

/-- Without a label there is nothing to wait for. -/
theorem ofStatement_eq_placeholder (hmnemonic : ':' ∉ s.mnemonic)
    (hoperands : ∀ name, Operand.label name ∉ s.operands) :
    ofStatement table s = placeholder table s := by
  rw [ofStatement, referenceOf, if_neg hmnemonic, labelOf_eq_none hoperands]
  change (placeholder table s >>= fun encoding => pure encoding) = _
  cases placeholder table s <;> rfl

/-- What is not data is an instruction. -/
theorem instruction_of_form_ne (h : ofStatement table s = .ok encoding)
    (hform : encoding.form ≠ .data) :
    instruction table s = .ok { encoding with reference := none } := by
  obtain ⟨-, hbody, -⟩ := ofStatement_eq_ok h
  rcases placeholder_eq_ok hbody with ⟨hdata, -⟩ | hinstruction
  · exact absurd hdata hform
  · exact hinstruction

/-- A statement that names a label is encoded by a rule with an opcode of one byte. -/
theorem exists_rule_of_reference (h : ofStatement table s = .ok encoding) {reference : Reference}
    (hreference : encoding.reference = some reference) :
    ∃ key opcode, s.starred? = some (key, .label reference.label) ∧
      table.rule? key = some ⟨[opcode], reference.jump.width⟩ ∧
      encoding.bytes = opcode :: List.replicate reference.jump.width.size 0 := by
  obtain ⟨hnames, -, hform⟩ := ofStatement_eq_ok h
  rw [hreference] at hnames
  have hone := hform reference hreference
  have hne : encoding.form ≠ .data := by
    rw [hone]
    exact nofun
  rcases instruction_eq_ok (instruction_of_form_ne h hne) with
    ⟨bytes, -, heq⟩ | ⟨key, operand, ⟨lead, width⟩, value, hkey, hrule, hvalue, heq⟩
  · have hfixed : encoding.form = .fixed := congrArg Encoding.form heq
    rw [hone] at hfixed
    cases hfixed
  · have hbytes : encoding.bytes = lead ++ littleEndian width.size value :=
      congrArg Encoding.bytes heq
    have hnumbered : encoding.form = .numbered lead.length width := congrArg Encoding.form heq
    rw [hone] at hnumbered
    obtain ⟨hlength, rfl⟩ := Form.numbered.inj hnumbered
    obtain ⟨opcode, rfl⟩ := List.length_eq_one_iff.mp hlength.symm
    have hlabel := operand_eq_label hkey (mem_of_referenceOf hnames)
    subst hlabel
    cases hvalue
    refine ⟨key, opcode, hkey, hrule, ?_⟩
    rw [hbytes, littleEndian_of_zero]
    rfl

/-- A statement that names a label is an opcode of one byte and zeros. -/
theorem bytes_of_reference (h : ofStatement table s = .ok encoding) {reference : Reference}
    (hreference : encoding.reference = some reference) :
    ∃ opcode, encoding.bytes = opcode :: List.replicate reference.jump.width.size 0 := by
  obtain ⟨-, opcode, -, -, hbytes⟩ := exists_rule_of_reference h hreference
  exact ⟨opcode, hbytes⟩

end Z80.Encoding
