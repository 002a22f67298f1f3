import Mathlib.Data.List.Forall2
import Mathlib.Data.List.Nodup
import Z80.InstructionSet
import Z80.Proofs.Encoding

/-!
# Machine code is read in one way

An opcode of the instruction set says where it ends: it is one byte, or two after a byte that opens
a page.  No two instructions have the same opcode, except for the spellings of one restart.  So code
gives the statements back that it was made from, up to those spellings and the spelling of numbers.
-/

namespace Z80

/-! ## Distinct numbers

The numbers seen so far are the bits of one number, so that a long list is checked in one pass. -/

/-- Whether the numbers are distinct and none of them is in `seen`. -/
def distinctFrom (seen : Nat) : List Nat → Bool
  | [] => true
  | n :: rest => !seen.testBit n && distinctFrom (seen ||| 1 <<< n) rest

theorem distinctFrom_cons {seen n : Nat} {rest : List Nat} :
    distinctFrom seen (n :: rest) = true ↔
      seen.testBit n = false ∧ distinctFrom (seen ||| 1 <<< n) rest = true := by
  rw [distinctFrom, Bool.and_eq_true, Bool.not_eq_true']

theorem fresh_of_distinctFrom {seen n : Nat} {l : List Nat} (h : distinctFrom seen l = true)
    (hn : n ∈ l) : seen.testBit n = false := by
  induction l generalizing seen with
  | nil => cases hn
  | cons k rest ih =>
    obtain ⟨hk, hrest⟩ := distinctFrom_cons.mp h
    cases hn with
    | head => exact hk
    | tail _ hn =>
      have hbit := ih hrest hn
      rw [Nat.testBit_or, Bool.or_eq_false_iff] at hbit
      exact hbit.1

theorem nodup_of_distinctFrom {seen : Nat} {l : List Nat} (h : distinctFrom seen l = true) :
    l.Nodup := by
  induction l generalizing seen with
  | nil => exact .nil
  | cons n rest ih =>
    obtain ⟨-, hrest⟩ := distinctFrom_cons.mp h
    refine List.nodup_cons.mpr ⟨?_, ih hrest⟩
    intro hmem
    -- the bit of the first number is set when the rest is checked
    have hbit := fresh_of_distinctFrom hrest hmem
    rw [Nat.testBit_or, Nat.one_shiftLeft, Nat.testBit_two_pow_self, Bool.or_true] at hbit
    cases hbit

namespace InstructionSet

/-! ## Opcodes -/

/-- A byte after which a second one belongs to the opcode. -/
def OpensPage (b : UInt8) : Prop := b = 0xCB ∨ b = 0xED

instance (b : UInt8) : Decidable (OpensPage b) := inferInstanceAs (Decidable (_ ∨ _))

/-- The opcode that code starts with. -/
def opcodeOf : List UInt8 → List UInt8
  | [] => []
  | b :: rest => if OpensPage b then b :: rest.take 1 else [b]

/-- Whether bytes are a whole opcode. -/
def isOpcode : List UInt8 → Bool
  | [b] => !decide (OpensPage b)
  | [b, _] => decide (OpensPage b)
  | _ => false

/-- A number for each opcode. -/
def opcodeNumber : List UInt8 → Nat
  | [] => 0
  | b :: rest => b.toNat + 256 * opcodeNumber rest

/-- An opcode is found in front of any code. -/
theorem opcodeOf_append {lead : List UInt8} (h : isOpcode lead = true) (rest : List UInt8) :
    opcodeOf (lead ++ rest) = lead := by
  match lead with
  | [] => cases h
  | [b] =>
    have hpage : ¬ OpensPage b := by simpa [isOpcode] using h
    exact if_neg hpage
  | [b, c] =>
    have hpage : OpensPage b := by simpa [isOpcode] using h
    exact if_pos hpage
  | _ :: _ :: _ :: _ => cases h

/-! ## Instructions -/

/-- What an opcode stands for: an entry of the table, a restart in any spelling, or a rule. -/
inductive Instruction where
  | entry (key : Text)
  | restart (vector : UInt8)
  | rule (key : Text) (rule : Rule)

def restartVectors : List UInt8 := [0x00, 0x08, 0x10, 0x18, 0x20, 0x28, 0x30, 0x38]

/-- The entries other than restarts. -/
def entries : List FixedEntry :=
  single ++ loads ++ counts ++ accumulatorForms ++ pairForms ++ stackForms ++ rotationForms ++
    bitForms ++ conditionalReturns ++ portForms

/-- Every instruction with its opcode. -/
def opcodes : List (Instruction × List UInt8) :=
  entries.map (fun e => (.entry e.1, e.2)) ++
    restartVectors.map (fun vector => (.restart vector, [0xC7 ||| vector])) ++
    table.rules.map fun e => (.rule e.1 e.2, e.2.lead)

theorem isOpcode_of_mem {x : Instruction × List UInt8} (h : x ∈ opcodes) : isOpcode x.2 = true := by
  have hall : (opcodes.all fun x => isOpcode x.2) = true := by decide +kernel
  exact List.all_eq_true.mp hall x h

/-- No two instructions have the same opcode. -/
theorem eq_of_lead_eq {x y : Instruction × List UInt8} (hx : x ∈ opcodes) (hy : y ∈ opcodes)
    (h : x.2 = y.2) : x = y := by
  have hdistinct : distinctFrom 0 (opcodes.map fun x => opcodeNumber x.2) = true := by
    decide +kernel
  exact List.inj_on_of_nodup_map (nodup_of_distinctFrom hdistinct) hx hy (congrArg opcodeNumber h)

theorem mem_of_lookup {α : Type} {l : List (Text × α)} {key : Text} {value : α}
    (h : l.lookup key = some value) : (key, value) ∈ l := by
  obtain ⟨before, after, rfl, -⟩ := List.lookup_eq_some_iff.mp h
  exact List.mem_append_right _ List.mem_cons_self

theorem mem_fixed {e : FixedEntry} (h : e ∈ table.fixed) : e ∈ entries ∨ e ∈ restarts := by
  rcases List.mem_append.mp h with h | h
  · rcases List.mem_append.mp h with h | h
    · exact .inl (List.mem_append_left _ h)
    · exact .inr h
  · exact .inl (List.mem_append_right _ h)

theorem mem_restarts {e : FixedEntry} (h : e ∈ restarts) :
    ∃ vector ∈ restartVectors, ∃ spelling ∈ restartSpellings vector,
      e = ("rst ".toList ++ spelling, [0xC7 ||| vector]) := by
  obtain ⟨vector, hvector, h⟩ := List.mem_flatMap.mp h
  obtain ⟨spelling, hspelling, rfl⟩ := List.mem_map.mp h
  exact ⟨vector, hvector, spelling, hspelling, rfl⟩

/-! ## Statements and their instructions -/

/-- A statement that the instruction set encodes, other than data. -/
structure Coded where
  statement : Statement
  encoding : Encoding
  accepted : Encoding.ofStatement table statement = .ok encoding
  instruction : encoding.form ≠ .data

/-- How a statement comes to be encoded by an instruction with its opcode. -/
inductive Denotes (s : Statement) (encoding : Encoding) : Instruction × List UInt8 → Prop
  | entry {key : Text} {lead : List UInt8} (htext : s.text = key)
      (hentry : table.fixed? key = some lead) (hform : encoding.form = .fixed)
      (hbytes : encoding.bytes = lead) :
      Denotes s encoding (.entry key, lead)
  | restart {vector : UInt8} {spelling : Text} {lead : List UInt8}
      (hvector : vector ∈ restartVectors) (hspelling : spelling ∈ restartSpellings vector)
      (htext : s.text = "rst ".toList ++ spelling) (hform : encoding.form = .fixed)
      (hbytes : encoding.bytes = lead) :
      Denotes s encoding (.restart vector, lead)
  | rule {key : Text} {operand : Operand} {rule : Rule} {value : Int}
      (hkey : s.starred? = some (key, operand)) (hrule : table.rule? key = some rule)
      (hvalue : Encoding.valueOf operand = .ok value)
      (hform : encoding.form = .numbered rule.lead.length rule.width)
      (hbytes : encoding.bytes = rule.lead ++ littleEndian rule.width.size value) :
      Denotes s encoding (.rule key rule, rule.lead)

/-- Statements that machine code does not tell apart: they have one entry of the table, or are
restarts at one address, or have one rule and numbers that differ by a multiple of what the width
holds. -/
inductive Alike (s t : Statement) : Prop
  | entry (hentry : (table.fixed? s.text).isSome = true) (htext : s.text = t.text) : Alike s t
  | restart (vector : UInt8) (spelling spelling' : Text) (hvector : vector ∈ restartVectors)
      (hspelling : spelling ∈ restartSpellings vector)
      (hspelling' : spelling' ∈ restartSpellings vector)
      (hs : s.text = "rst ".toList ++ spelling)
      (ht : t.text = "rst ".toList ++ spelling') : Alike s t
  | rule (key : Text) (rule : Rule) (operand operand' : Operand) (value value' : Int)
      (hrule : table.rule? key = some rule)
      (hs : s.starred? = some (key, operand)) (ht : t.starred? = some (key, operand'))
      (hvalue : Encoding.valueOf operand = .ok value)
      (hvalue' : Encoding.valueOf operand' = .ok value')
      (hmod : value ≡ value' [ZMOD 2 ^ rule.width.bits]) : Alike s t

/-- The number of bytes after the opcode. -/
def Instruction.operandSize : Instruction → Nat
  | rule _ r => r.width.size
  | _ => 0

theorem Coded.denotes (p : Coded) : ∃ x ∈ opcodes, Denotes p.statement p.encoding x := by
  obtain ⟨s, encoding, accepted, hinstruction⟩ := p
  rcases Encoding.instruction_eq_ok (Encoding.instruction_of_form_ne accepted hinstruction) with
    ⟨bytes, hfixed, heq⟩ | ⟨key, operand, rule, value, hkey, hrule, hvalue, heq⟩
  · have hform : encoding.form = .fixed := congrArg Encoding.form heq
    have hbytes : encoding.bytes = bytes := congrArg Encoding.bytes heq
    rcases mem_fixed (mem_of_lookup hfixed) with hmem | hmem
    · refine ⟨(.entry s.text, bytes), ?_, .entry rfl hfixed hform hbytes⟩
      exact List.mem_append_left _ (List.mem_append_left _ (List.mem_map.mpr ⟨_, hmem, rfl⟩))
    · obtain ⟨vector, hvector, spelling, hspelling, hpair⟩ := mem_restarts hmem
      obtain ⟨htext, rfl⟩ := Prod.mk.inj hpair
      refine ⟨(.restart vector, [0xC7 ||| vector]), ?_,
        .restart hvector hspelling htext hform hbytes⟩
      exact List.mem_append_left _ (List.mem_append_right _ (List.mem_map.mpr ⟨_, hvector, rfl⟩))
  · have hform : encoding.form = .numbered rule.lead.length rule.width := congrArg Encoding.form heq
    have hbytes : encoding.bytes = rule.lead ++ littleEndian rule.width.size value :=
      congrArg Encoding.bytes heq
    refine ⟨(.rule key rule, rule.lead), ?_, .rule hkey hrule hvalue hform hbytes⟩
    exact List.mem_append_right _ (List.mem_map.mpr ⟨_, mem_of_lookup hrule, rfl⟩)

namespace Denotes

variable {s t : Statement} {encoding encoding' : Encoding} {x : Instruction × List UInt8}

theorem bytes_eq (h : Denotes s encoding x) :
    ∃ number, encoding.bytes = x.2 ++ number ∧ number.length = x.1.operandSize := by
  cases h with
  | entry _ _ _ hbytes => exact ⟨[], by rw [hbytes, List.append_nil], rfl⟩
  | restart _ _ _ _ hbytes => exact ⟨[], by rw [hbytes, List.append_nil], rfl⟩
  | rule _ _ _ _ hbytes => exact ⟨_, hbytes, length_littleEndian _ _⟩

/-- One instruction and the same bytes leave only the spelling open. -/
theorem alike (hs : Denotes s encoding x) (ht : Denotes t encoding' x)
    (hbytes : encoding.bytes = encoding'.bytes) : encoding.form = encoding'.form ∧ Alike s t := by
  cases hs with
  | entry htext hentry hform _ =>
    cases ht with | entry htext' _ hform' _ =>
    have hsome : (table.fixed? s.text).isSome = true := by rw [htext, hentry]; rfl
    exact ⟨hform.trans hform'.symm, .entry hsome (htext.trans htext'.symm)⟩
  | restart hvector hspelling htext hform _ =>
    cases ht with | restart _ hspelling' htext' hform' _ =>
    exact ⟨hform.trans hform'.symm, .restart _ _ _ hvector hspelling hspelling' htext htext'⟩
  | rule hkey hrule hvalue hform hencoded =>
    cases ht with | rule hkey' _ hvalue' hform' hencoded' =>
    rw [hencoded, hencoded', List.append_cancel_left_eq] at hbytes
    refine ⟨hform.trans hform'.symm, .rule _ _ _ _ _ _ hrule hkey hkey' hvalue hvalue' ?_⟩
    rw [Width.two_pow_bits]
    exact modEq_of_littleEndian_eq hbytes

end Denotes

/-! ## Code -/

theorem Coded.bytes_ne_nil (p : Coded) : p.encoding.bytes ≠ [] := by
  obtain ⟨x, hx, hdenotes⟩ := p.denotes
  obtain ⟨number, hbytes, -⟩ := hdenotes.bytes_eq
  have hopcode := isOpcode_of_mem hx
  intro hnil
  rw [hbytes, List.append_eq_nil_iff] at hnil
  rw [hnil.1] at hopcode
  cases hopcode

/-- Statements at the start of the same code are alike. -/
theorem Coded.alike_of_append {p q : Coded} {rest rest' : List UInt8}
    (h : p.encoding.bytes ++ rest = q.encoding.bytes ++ rest') :
    p.encoding.form = q.encoding.form ∧ p.encoding.bytes = q.encoding.bytes ∧
      Alike p.statement q.statement := by
  obtain ⟨x, hx, hp⟩ := p.denotes
  obtain ⟨y, hy, hq⟩ := q.denotes
  obtain ⟨number, hbytes, hlength⟩ := hp.bytes_eq
  obtain ⟨number', hbytes', hlength'⟩ := hq.bytes_eq
  -- both opcodes are the one that the code starts with
  have hlead : x.2 = y.2 := by
    rw [← opcodeOf_append (isOpcode_of_mem hx) (number ++ rest),
      ← opcodeOf_append (isOpcode_of_mem hy) (number' ++ rest'), ← List.append_assoc,
      ← List.append_assoc, ← hbytes, ← hbytes', h]
  have hsame := eq_of_lead_eq hx hy hlead
  subst hsame
  have hsize : p.encoding.bytes.length = q.encoding.bytes.length := by
    rw [hbytes, hbytes', List.length_append, List.length_append, hlength, hlength']
  have hequal := (List.append_inj h hsize).1
  obtain ⟨hform, halike⟩ := hp.alike hq hequal
  exact ⟨hform, hequal, halike⟩

/-- Two lists of statements with the same code are of one length and have alike statements in each
place, with the same bytes. -/
theorem code_unambiguous (ps qs : List Coded)
    (h : ps.flatMap (·.encoding.bytes) = qs.flatMap (·.encoding.bytes)) :
    List.Forall₂
      (fun p q => p.encoding.form = q.encoding.form ∧ p.encoding.bytes = q.encoding.bytes ∧
        Alike p.statement q.statement) ps qs := by
  induction ps generalizing qs with
  | nil =>
    cases qs with
    | nil => exact .nil
    | cons q qs => exact absurd (List.append_eq_nil_iff.mp h.symm).1 q.bytes_ne_nil
  | cons p ps ih =>
    cases qs with
    | nil => exact absurd (List.append_eq_nil_iff.mp h).1 p.bytes_ne_nil
    | cons q qs =>
      rw [List.flatMap_cons, List.flatMap_cons] at h
      have hfirst := Coded.alike_of_append h
      have hsize := congrArg List.length hfirst.2.1
      exact .cons hfirst (ih qs (List.append_inj h hsize).2)

/-- A restart, a load and a jump. -/
def sampleCode : List Coded :=
  [⟨⟨"rst".toList, [.immediate "8".toList]⟩, ⟨[0xCF], .fixed, none⟩, by decide +kernel, nofun⟩,
    ⟨⟨"ld".toList, [.register "a".toList, .immediate "-1".toList]⟩,
      ⟨[0x3E, 0xFF], .numbered 1 .byte, none⟩, by decide +kernel, nofun⟩,
    ⟨⟨"jp".toList, [.label "x".toList]⟩,
      ⟨[0xC3, 0x00, 0x00], .numbered 1 .word, some ⟨"x".toList, .absolute⟩⟩,
      by decide +kernel, nofun⟩]

/-- The same code, in other spellings. -/
def sampleRespelled : List Coded :=
  [⟨⟨"rst".toList, [.immediate "08h".toList]⟩, ⟨[0xCF], .fixed, none⟩, by decide +kernel, nofun⟩,
    ⟨⟨"ld".toList, [.register "a".toList, .immediate "255".toList]⟩,
      ⟨[0x3E, 0xFF], .numbered 1 .byte, none⟩, by decide +kernel, nofun⟩,
    ⟨⟨"jp".toList, [.immediate "0".toList]⟩, ⟨[0xC3, 0x00, 0x00], .numbered 1 .word, none⟩,
      by decide +kernel, nofun⟩]

theorem sampleCode_unambiguous :
    sampleCode.flatMap (·.encoding.bytes) = sampleRespelled.flatMap (·.encoding.bytes) ∧
    List.Forall₂
      (fun p q => p.encoding.form = q.encoding.form ∧ p.encoding.bytes = q.encoding.bytes ∧
        Alike p.statement q.statement) sampleCode sampleRespelled := by
  have hcode : sampleCode.flatMap (·.encoding.bytes) =
      sampleRespelled.flatMap (·.encoding.bytes) := rfl
  exact ⟨hcode, code_unambiguous sampleCode sampleRespelled hcode⟩

end InstructionSet

end Z80
