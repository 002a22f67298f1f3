import Z80.OpcodeTable

/-!
# The Z80 instruction set

The documented instructions, without the forms that index by `ix` or `iy`.
-/

namespace Z80.InstructionSet

/-! ## Words -/

def vocabulary : Vocabulary where
  registers :=
    ["a", "af", "af'", "b", "bc", "c", "d", "de", "e", "h", "hl", "l", "sp", "i", "r"].map
      String.toList
  conditions := ["nz", "z", "nc", "c", "po", "pe", "p", "m"].map String.toList
  absoluteJumps := ["jp", "call"].map String.toList
  relativeJumps := ["jr", "djnz"].map String.toList

/-- Words of the assembly language, each with the number that stands for it in an opcode. -/
def coded (words : List (String × UInt8)) : List (Text × UInt8) :=
  words.map fun w => (w.1.toList, w.2)

/-- Operands of one byte. -/
def bytes : List (Text × UInt8) :=
  coded [("b", 0), ("c", 1), ("d", 2), ("e", 3), ("h", 4), ("l", 5), ("(hl)", 6), ("a", 7)]

/-- Register pairs. -/
def pairs : List (Text × UInt8) := coded [("bc", 0), ("de", 1), ("hl", 2), ("sp", 3)]

/-- Register pairs that go on the stack. -/
def stackPairs : List (Text × UInt8) := coded [("bc", 0), ("de", 1), ("hl", 2), ("af", 3)]

def conditions : List (Text × UInt8) :=
  coded [("nz", 0), ("z", 1), ("nc", 2), ("c", 3), ("po", 4), ("pe", 5), ("p", 6), ("m", 7)]

/-- Operations on the accumulator, up to the operand, each with its opcode for a register. -/
def accumulatorOperations : List (Text × UInt8) :=
  coded [("add a,", 0x80), ("adc a,", 0x88), ("sub ", 0x90), ("sbc a,", 0x98), ("and ", 0xA0),
    ("xor ", 0xA8), ("or ", 0xB0), ("cp ", 0xB8)]

/-- Rotations and shifts. -/
def rotations : List (Text × UInt8) :=
  coded [("rlc", 0x00), ("rrc", 0x08), ("rl", 0x10), ("rr", 0x18), ("sla", 0x20), ("sra", 0x28),
    ("srl", 0x38)]

def bitOperations : List (Text × UInt8) := coded [("bit", 0x40), ("res", 0x80), ("set", 0xC0)]

/-- An opcode with a number in it, from the bit `place` on. -/
def withField (opcode place number : UInt8) : UInt8 := opcode ||| number <<< place

/-! ## Instructions without a number -/

abbrev FixedEntry := Text × List UInt8

/-- Instructions that belong to no family. -/
def single : List FixedEntry :=
  [("nop", [0x00]), ("halt", [0x76]), ("di", [0xF3]), ("ei", [0xFB]), ("exx", [0xD9]),
    ("ex de,hl", [0xEB]), ("ex af,af'", [0x08]), ("ex (sp),hl", [0xE3]), ("jp (hl)", [0xE9]),
    ("ld sp,hl", [0xF9]), ("ld a,(bc)", [0x0A]), ("ld a,(de)", [0x1A]), ("ld (bc),a", [0x02]),
    ("ld (de),a", [0x12]), ("ld a,i", [0xED, 0x57]), ("ld a,r", [0xED, 0x5F]),
    ("ld i,a", [0xED, 0x47]), ("ld r,a", [0xED, 0x4F]), ("rlca", [0x07]), ("rrca", [0x0F]),
    ("rla", [0x17]), ("rra", [0x1F]), ("daa", [0x27]), ("cpl", [0x2F]), ("scf", [0x37]),
    ("ccf", [0x3F]), ("ret", [0xC9]), ("reti", [0xED, 0x4D]), ("retn", [0xED, 0x45]),
    ("neg", [0xED, 0x44]), ("im 0", [0xED, 0x46]), ("im 1", [0xED, 0x56]), ("im 2", [0xED, 0x5E]),
    ("rld", [0xED, 0x6F]), ("rrd", [0xED, 0x67]), ("ldi", [0xED, 0xA0]), ("ldir", [0xED, 0xB0]),
    ("ldd", [0xED, 0xA8]), ("lddr", [0xED, 0xB8]), ("cpi", [0xED, 0xA1]), ("cpir", [0xED, 0xB1]),
    ("cpd", [0xED, 0xA9]), ("cpdr", [0xED, 0xB9]), ("ini", [0xED, 0xA2]), ("inir", [0xED, 0xB2]),
    ("ind", [0xED, 0xAA]), ("indr", [0xED, 0xBA]), ("outi", [0xED, 0xA3]), ("otir", [0xED, 0xB3]),
    ("outd", [0xED, 0xAB]), ("otdr", [0xED, 0xBB])].map fun e => (e.1.toList, e.2)

/-- Loads between operands of one byte.  The opcode that two operands in memory would have is that
of `halt`. -/
def loads : List FixedEntry :=
  bytes.flatMap fun dst =>
    (bytes.filter fun src => !(dst.2 == 6 && src.2 == 6)).map fun src =>
      ("ld ".toList ++ dst.1 ++ ',' :: src.1, [withField 0x40 3 dst.2 ||| src.2])

def counts : List FixedEntry :=
  bytes.flatMap fun r =>
    [("inc ".toList ++ r.1, [withField 0x04 3 r.2]), ("dec ".toList ++ r.1, [withField 0x05 3 r.2])]

def accumulatorForms : List FixedEntry :=
  accumulatorOperations.flatMap fun op =>
    bytes.map fun src => (op.1 ++ src.1, [op.2 ||| src.2])

def pairForms : List FixedEntry :=
  pairs.flatMap fun p =>
    [("inc ".toList ++ p.1, [withField 0x03 4 p.2]), ("dec ".toList ++ p.1, [withField 0x0B 4 p.2]),
      ("add hl,".toList ++ p.1, [withField 0x09 4 p.2]),
      ("adc hl,".toList ++ p.1, [0xED, withField 0x4A 4 p.2]),
      ("sbc hl,".toList ++ p.1, [0xED, withField 0x42 4 p.2])]

def stackForms : List FixedEntry :=
  stackPairs.flatMap fun p =>
    [("push ".toList ++ p.1, [withField 0xC5 4 p.2]),
      ("pop ".toList ++ p.1, [withField 0xC1 4 p.2])]

def rotationForms : List FixedEntry :=
  bytes.flatMap fun r =>
    rotations.map fun op => (op.1 ++ ' ' :: r.1, [0xCB, op.2 ||| r.2])

def bitForms : List FixedEntry :=
  bytes.flatMap fun r =>
    bitOperations.flatMap fun op =>
      [0, 1, 2, 3, 4, 5, 6, 7].map fun bit : UInt8 =>
        (op.1 ++ ' ' :: Numeral.decimal bit.toNat ++ ',' :: r.1,
          [0xCB, withField op.2 3 bit ||| r.2])

def conditionalReturns : List FixedEntry :=
  conditions.map fun cc => ("ret ".toList ++ cc.1, [withField 0xC0 3 cc.2])

/-- The ways to write the address of a restart. -/
def restartSpellings (vector : UInt8) : List Text :=
  [Numeral.hex 1 vector.toNat, Numeral.hex 2 vector.toNat, Numeral.hex 1 vector.toNat ++ ['h'],
    Numeral.hex 2 vector.toNat ++ ['h'], "0x".toList ++ Numeral.hex 2 vector.toNat]

/-- Restarts are known by the spelling of their address and not by its value. -/
def restarts : List FixedEntry :=
  [0x00, 0x08, 0x10, 0x18, 0x20, 0x28, 0x30, 0x38].flatMap fun vector : UInt8 =>
    (restartSpellings vector).map fun spelling => ("rst ".toList ++ spelling, [0xC7 ||| vector])

/-- Input and output through the device that `c` selects. -/
def portForms : List FixedEntry :=
  (bytes.filter fun r => r.2 != 6).flatMap fun r =>
    [("in ".toList ++ r.1 ++ ",(c)".toList, [0xED, withField 0x40 3 r.2]),
      ("out (c),".toList ++ r.1, [0xED, withField 0x41 3 r.2])]

/-! ## Instructions with a number -/

abbrev RuleEntry := Text × Rule

def singleRules : List RuleEntry :=
  [("jp *", ⟨[0xC3], .word⟩), ("call *", ⟨[0xCD], .word⟩), ("jr *", ⟨[0x18], .byte⟩),
    ("djnz *", ⟨[0x10], .byte⟩), ("ld a,(*)", ⟨[0x3A], .word⟩), ("ld (*),a", ⟨[0x32], .word⟩),
    ("ld hl,(*)", ⟨[0x2A], .word⟩), ("ld (*),hl", ⟨[0x22], .word⟩), ("in a,(*)", ⟨[0xDB], .byte⟩),
    ("out (*),a", ⟨[0xD3], .byte⟩)].map fun e => (e.1.toList, e.2)

def loadRules : List RuleEntry :=
  bytes.map fun r => ("ld ".toList ++ r.1 ++ ",*".toList, ⟨[withField 0x06 3 r.2], .byte⟩)

def accumulatorRules : List RuleEntry :=
  accumulatorOperations.map fun op => (op.1 ++ ['*'], ⟨[op.2 ||| 0x46], .byte⟩)

def pairRules : List RuleEntry :=
  pairs.map fun p => ("ld ".toList ++ p.1 ++ ",*".toList, ⟨[withField 0x01 4 p.2], .word⟩)

/-- Loads of a pair from and to memory.  Those of `hl` have shorter opcodes of their own. -/
def pairMemoryRules : List RuleEntry :=
  (pairs.filter fun p => p.2 != 2).flatMap fun p =>
    [("ld ".toList ++ p.1 ++ ",(*)".toList, ⟨[0xED, withField 0x4B 4 p.2], .word⟩),
      ("ld (*),".toList ++ p.1, ⟨[0xED, withField 0x43 4 p.2], .word⟩)]

def jumpRules : List RuleEntry :=
  conditions.flatMap fun cc =>
    [("jp ".toList ++ cc.1 ++ ",*".toList, ⟨[withField 0xC2 3 cc.2], .word⟩),
      ("call ".toList ++ cc.1 ++ ",*".toList, ⟨[withField 0xC4 3 cc.2], .word⟩)]

/-- Only the first four conditions have a relative jump. -/
def relativeJumpRules : List RuleEntry :=
  (conditions.filter fun cc => cc.2 < 4).map fun cc =>
    ("jr ".toList ++ cc.1 ++ ",*".toList, ⟨[withField 0x20 3 cc.2], .byte⟩)

/-! ## The table -/

def table : OpcodeTable where
  vocabulary := vocabulary
  fixed :=
    single ++ loads ++ counts ++ accumulatorForms ++ pairForms ++ stackForms ++ rotationForms ++
      bitForms ++ conditionalReturns ++ restarts ++ portForms
  rules :=
    singleRules ++ loadRules ++ accumulatorRules ++ pairRules ++ pairMemoryRules ++ jumpRules ++
      relativeJumpRules

end Z80.InstructionSet
