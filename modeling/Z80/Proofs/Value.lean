import Z80.InstructionSet
import Z80.Proofs.Encoding

/-!
# Numbers in instructions

A statement that no fixed entry knows, and a rule does, is the opcode of the rule and the number of
the statement in the width of the rule.  The number fits with a sign or without, its bytes are the
only ones of their length that stand for it, and a number that does not fit is named by the fault.
-/

namespace Z80.Encoding

open Operand (isNumeric)

variable {table : OpcodeTable} {s : Statement} {operand : Operand} {rule : Rule} {literal : Text}

/-- A statement without a label that is known by a rule for its one number. -/
structure TakesNumber (table : OpcodeTable) (s : Statement) (operand : Operand)
    (rule : Rule) : Prop where
  noColon : ':' ∉ s.mnemonic
  noLabel : ∀ name, Operand.label name ∉ s.operands
  notBytes : s.mnemonic ≠ "defb".toList
  notMessage : s.mnemonic ≠ "defm".toList
  notFixed : table.fixed? s.text = none
  number : s.operands.filter isNumeric = [operand]
  rule : table.rule? (s.join Operand.star) = some rule

namespace TakesNumber

/-- A number that is no label is written out. -/
theorem exists_literal (h : TakesNumber table s operand rule) :
    ∃ literal, operand.literal? = some literal := by
  have hmem : operand ∈ s.operands.filter isNumeric := by
    rw [h.number]
    exact List.mem_singleton_self operand
  obtain ⟨hmem, hnumeric⟩ := List.mem_filter.mp hmem
  cases operand with
  | direct address => exact ⟨address, rfl⟩
  | immediate value => exact ⟨value, rfl⟩
  | label name => exact absurd hmem (h.noLabel name)
  | register _ | condition _ | indirect _ | text _ => cases hnumeric

/-- The literal is read first, and then put into the width of the rule. -/
theorem ofStatement_eq (h : TakesNumber table s operand rule)
    (hliteral : operand.literal? = some literal) :
    ofStatement table s = do
      let value ← Literal.read literal
      let number ← rule.width.encode value
      return ⟨rule.lead ++ number, .numbered rule.lead.length rule.width, none⟩ := by
  have hstarred : s.starred? = some (s.join Operand.star, operand) :=
    starred?_eq_some.mpr ⟨h.number, rfl⟩
  have hvalue : valueOf operand = Literal.read literal := by rw [valueOf, hliteral]
  rw [ofStatement_eq_placeholder h.noColon h.noLabel, placeholder, if_neg h.notBytes,
    if_neg h.notMessage, instruction, h.notFixed, hstarred]
  dsimp only [Option.bind_some]
  rw [h.rule]
  dsimp only [Option.map_some]
  rw [hvalue]

/-- A statement is encoded if its literal has a value that fits, by the bytes that stand for that
value. -/
theorem ofStatement_eq_ok_iff (h : TakesNumber table s operand rule)
    (hliteral : operand.literal? = some literal) (encoding : Encoding) :
    ofStatement table s = .ok encoding ↔
      ∃ value number, Literal.read literal = .ok value ∧ rule.width.Fits value ∧
        number = littleEndian rule.width.size value ∧
        encoding = ⟨rule.lead ++ number, .numbered rule.lead.length rule.width, none⟩ := by
  rw [h.ofStatement_eq hliteral, bind_eq_ok]
  constructor
  · rintro ⟨value, hvalue, hencoding⟩
    obtain ⟨number, hnumber, hencoding⟩ := bind_eq_ok.mp hencoding
    obtain ⟨hfits, hbytes⟩ := Width.encode_eq_ok hnumber
    exact ⟨value, number, hvalue, hfits, hbytes, (Except.ok.inj hencoding).symm⟩
  · rintro ⟨value, number, hvalue, hfits, rfl, rfl⟩
    exact ⟨value, hvalue, bind_eq_ok.mpr ⟨_, if_pos hfits, rfl⟩⟩

theorem ofStatement_eq_error (h : TakesNumber table s operand rule)
    (hliteral : operand.literal? = some literal) {value : Int}
    (hvalue : Literal.read literal = .ok value) (hfits : ¬ rule.width.Fits value) :
    ofStatement table s = .error (.valueOutOfRange value rule.width.bits) := by
  have hencode : rule.width.encode value = .error (.valueOutOfRange value rule.width.bits) :=
    if_neg hfits
  rw [h.ofStatement_eq hliteral, hvalue]
  change (rule.width.encode value >>= _) = _
  rw [hencode]
  rfl

end TakesNumber

/-- A statement that takes a number is encoded if and only if its literal has a value that fits in
the `w` bits of its rule, with a sign or without: by the opcode of the rule, and `w / 8` bytes that
stand for the value modulo `2 ^ w`.  A value that does not fit is at fault, and so is a literal
without a value.  In the same way, the byte of a displacement is the one that stands for it in two's
complement, and there is one from -128 to 127. -/
theorem number_encoded_exactly (table : OpcodeTable) (s : Statement) (operand : Operand)
    (rule : Rule) (h : TakesNumber table s operand rule) :
    (∃ literal, operand.literal? = some literal ∧
      ((∃ encoding, ofStatement table s = .ok encoding) ↔
        ∃ v, Literal.read literal = .ok v ∧ -2 ^ (rule.width.bits - 1) ≤ v ∧
          v ≤ 2 ^ rule.width.bits - 1) ∧
      (∀ encoding, ofStatement table s = .ok encoding → ∃ v number,
        Literal.read literal = .ok v ∧ encoding.bytes = rule.lead ++ number ∧
        encoding.reference = none ∧
        number.length = rule.width.bits / 8 ∧
        (ofLittleEndian number : Int) ≡ v [ZMOD 2 ^ rule.width.bits]) ∧
      (∀ v, Literal.read literal = .ok v →
        ¬ (-2 ^ (rule.width.bits - 1) ≤ v ∧ v ≤ 2 ^ rule.width.bits - 1) →
        ofStatement table s = .error (.valueOutOfRange v rule.width.bits)) ∧
      ∀ fault, Literal.read literal = .error fault → ofStatement table s = .error fault) ∧
    ∀ distance : Int,
      ((∃ b, displacement? distance = some b) ↔ -128 ≤ distance ∧ distance ≤ 127) ∧
      ∀ b, displacement? distance = some b ↔ b.toInt8.toInt = distance := by
  obtain ⟨literal, hliteral⟩ := h.exists_literal
  refine ⟨⟨literal, hliteral, ?_, ?_, ?_, ?_⟩, ?_⟩
  · simp only [h.ofStatement_eq_ok_iff hliteral, Width.fits_iff]
    constructor
    · rintro ⟨-, v, -, hv, hrange, -, -⟩
      exact ⟨v, hv, hrange⟩
    · rintro ⟨v, hv, hrange⟩
      exact ⟨_, v, _, hv, hrange, rfl, rfl⟩
  · intro encoding hencoding
    obtain ⟨v, number, hv, -, hnumber, rfl⟩ :=
      (h.ofStatement_eq_ok_iff hliteral encoding).mp hencoding
    obtain ⟨hlength, hvalue⟩ := eq_littleEndian_iff.mp hnumber
    refine ⟨v, number, hv, rfl, rfl, ?_, ?_⟩
    · rw [hlength, Width.bits, Nat.mul_div_cancel_left _ (by decide)]
    · rwa [Width.two_pow_bits]
  · intro v hv hrange
    exact h.ofStatement_eq_error hliteral hv (Width.fits_iff.not.mpr hrange)
  · intro fault hfault
    rw [h.ofStatement_eq hliteral, hfault]
    rfl
  · intro distance
    refine ⟨?_, fun b => displacement?_eq_some_iff⟩
    constructor
    · rintro ⟨b, hb⟩
      obtain rfl := displacement?_eq_some_iff.mp hb
      have hle := b.toInt8.le_toInt
      have hlt := b.toInt8.toInt_lt
      omega
    · rintro ⟨hlow, hhigh⟩
      exact ⟨UInt8.ofInt distance, displacement?_eq_some_iff.mpr (toInt_byte_ofInt hlow hhigh)⟩

/-- A load of the least word. -/
def leastLoad : Statement := ⟨"ld".toList, [.register "bc".toList, .immediate "-8000h".toList]⟩

/-- A load of the number after the greatest byte. -/
def overflowingLoad : Statement := ⟨"ld".toList, [.indirect "hl".toList, .immediate "256".toList]⟩

theorem boundaryLoads_encoded :
    TakesNumber InstructionSet.table leastLoad (.immediate "-8000h".toList) ⟨[0x01], .word⟩ ∧
    (∃ encoding, ofStatement InstructionSet.table leastLoad = .ok encoding) ∧
    TakesNumber InstructionSet.table overflowingLoad (.immediate "256".toList) ⟨[0x36], .byte⟩ ∧
    ofStatement InstructionSet.table overflowingLoad = .error (.valueOutOfRange 256 8) ∧
    displacement? (-128) = some 0x80 := by
  have hleast :
      TakesNumber InstructionSet.table leastLoad (.immediate "-8000h".toList) ⟨[0x01], .word⟩ :=
    ⟨by decide, by simp [leastLoad], by decide, by decide, by decide +kernel, by decide,
      by decide +kernel⟩
  have hoverflowing :
      TakesNumber InstructionSet.table overflowingLoad (.immediate "256".toList) ⟨[0x36], .byte⟩ :=
    ⟨by decide, by simp [overflowingLoad], by decide, by decide, by decide +kernel, by decide,
      by decide +kernel⟩
  obtain ⟨⟨_, ⟨⟩, hencoded, -⟩, hdistance⟩ := number_encoded_exactly _ _ _ _ hleast
  obtain ⟨⟨_, ⟨⟩, -, -, hfault, -⟩, -⟩ := number_encoded_exactly _ _ _ _ hoverflowing
  refine ⟨hleast, hencoded.mpr ⟨-0x8000, by decide, by decide, by decide⟩, hoverflowing, ?_, ?_⟩
  · exact hfault 256 (by decide) (by decide)
  · exact ((hdistance (-128)).2 0x80).mpr (by decide)

end Z80.Encoding
