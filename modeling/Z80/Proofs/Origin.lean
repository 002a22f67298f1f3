import Z80.Proofs.Linking
import Z80.Proofs.LineByLine

/-!
# Where the origin goes

The origin of the settings is a stand-in for one that the source does not set.  It goes into the
words of the jumps that hold the address of a label, and nowhere else: two runs that differ in it
have the same symbols, the same listing and the same other bytes, and each of those words moves as
much as the origin does.  A source that sets the origin, or has no such jump, does not depend on it
at all.
-/

namespace Z80

/-- A jump that holds the address of a label. -/
def Statement.NamesAddress (v : Vocabulary) (s : Statement) : Prop :=
  s.mnemonic ∈ v.absoluteJumps ∧ ∃ name, .label name ∈ s.operands

/-! ## Statements that name an address -/

theorem Vocabulary.jump?_eq_absolute {v : Vocabulary} {mnemonic : Text} :
    v.jump? mnemonic = some .absolute ↔ mnemonic ∈ v.absoluteJumps := by
  rw [jump?]
  split
  · next h => simpa using h
  · next h =>
    have hnot : mnemonic ∉ v.absoluteJumps := by simpa using h
    split <;> simp [hnot]

namespace Encoding

variable {table : OpcodeTable} {s : Statement} {encoding : Encoding}

/-- What waits for an address is what names one. -/
theorem reference_absolute_iff (h : ofStatement table s = .ok encoding) :
    (∃ label, encoding.reference = some ⟨label, .absolute⟩) ↔ s.NamesAddress table.vocabulary := by
  obtain ⟨hnames, -, -⟩ := ofStatement_eq_ok h
  rw [Statement.NamesAddress, ← Vocabulary.jump?_eq_absolute, ← exists_and_left]
  exact exists_congr fun label => referenceOf_eq_ok hnames ⟨label, .absolute⟩

end Encoding

/-! ## What a request makes of the origin -/

/-- Two numbers that are both small in 64 bits are as far apart there as they are. -/
theorem signed64_sub_signed64 {m n : Int} (hm : 0 ≤ signed64 m ∧ signed64 m ≤ 0xFFFF)
    (hn : 0 ≤ signed64 n ∧ signed64 n ≤ 0xFFFF) (hclose : -0x10000 < n - m ∧ n - m < 0x10000) :
    signed64 n - signed64 m = n - m := by
  have hdvd : ∀ k, (0x10000000000000000 : Int) ∣ signed64 k - k := fun k => Int.dvd_bmod_sub_self
  have hm' := hdvd m
  have hn' := hdvd n
  omega

namespace Request

variable {labels : Labels}

/-- A distance does not depend on the origin. -/
theorem operand_of_relative {r : Request} (h : r.reference.jump = .relative)
    (origin origin' : Option Address) : r.operand labels origin = r.operand labels origin' := by
  obtain ⟨⟨label, jump⟩, site⟩ := r
  cases h
  rfl

/-- An address moves as much as the origin does. -/
theorem operand_absolute_sub {label : Text} {site : Nat} {origin origin' : Address}
    {bytes bytes' : List UInt8}
    (h : (Request.mk ⟨label, .absolute⟩ site).operand labels (some origin) = .ok bytes)
    (h' : (Request.mk ⟨label, .absolute⟩ site).operand labels (some origin') = .ok bytes') :
    ∃ lo hi lo' hi' : UInt8, bytes = [lo, hi] ∧ bytes' = [lo', hi'] ∧
      ((lo'.toNat + 256 * hi'.toNat : Nat) : Int) - ((lo.toNat + 256 * hi.toNat : Nat) : Int) =
        origin'.toNat - origin.toNat := by
  obtain ⟨_, a, place, horigin, hplace, ha, rfl⟩ := operand_absolute h
  obtain ⟨_, a', place', horigin', hplace', ha', rfl⟩ := operand_absolute h'
  cases horigin
  cases horigin'
  cases hplace.symm.trans hplace'
  obtain ⟨lo, hi, hbytes, hsum⟩ := littleEndian_address a
  obtain ⟨lo', hi', hbytes', hsum'⟩ := littleEndian_address a'
  obtain ⟨hvalue, hmax⟩ := address?_eq_some ha
  obtain ⟨hvalue', hmax'⟩ := address?_eq_some ha'
  have hlt := origin.toNat_lt
  have hlt' := origin'.toNat_lt
  have hsub := signed64_sub_signed64 (m := origin.toNat + place) (n := origin'.toNat + place)
    ⟨by omega, hmax⟩ ⟨by omega, hmax'⟩ ⟨by omega, by omega⟩
  refine ⟨lo, hi, lo', hi', hbytes, hbytes', ?_⟩
  rw [hsum, hsum', hvalue, hvalue', hsub]
  omega

/-- Distances are written alike for every origin. -/
theorem writeAll_of_relative {requests : List Request}
    (h : ∀ r ∈ requests, r.reference.jump = .relative) (origin origin' : Option Address)
    (code : CodeBuffer) :
    writeAll labels origin code requests = writeAll labels origin' code requests := by
  induction requests generalizing code with
  | nil => rfl
  | cons r rest ih =>
    have hfirst : write labels origin code r = write labels origin' code r := by
      rw [write, write, operand_of_relative (h r List.mem_cons_self) origin origin']
    have hrest := ih fun r' hr' => h r' (List.mem_cons_of_mem _ hr')
    rw [writeAll, writeAll, List.foldlM_cons, List.foldlM_cons, hfirst]
    exact bind_congr fun middle => hrest middle

end Request

/-! ## Runs that differ in the origin -/

namespace Session

variable {setup : Setup} {s after : Session} {lines : List Text}

/-- The origins of a run are those that its lines set. -/
theorem mem_origins_iff {address : Address} :
    address ∈ (s.steps setup lines).origins ↔ some (.load address) ∈ s.lineSteps setup lines := by
  induction lines generalizing s with
  | nil => simp [steps, lineSteps, History.origins]
  | cons raw rest ih =>
    cases h : s.interpret setup raw with
    | error fault =>
      rw [steps, h, lineSteps_cons_of_error rest h]
      simp [ih]
    | ok step =>
      rw [steps, h, lineSteps_cons_of_ok rest h, History.origins_cons]
      cases step <;> simp [History.origin?, ih, eq_comm]

/-- Once a line sets the origin, there is one. -/
theorem isSome_origin_of_advance (h : s.advance setup lines = .ok after)
    (hset : ∃ address, some (.load address) ∈ s.lineSteps setup lines) : after.origin.isSome := by
  obtain ⟨address, hmem⟩ := hset
  have hne := List.ne_nil_of_mem (mem_origins_iff.mpr hmem)
  rw [(run_of_advance h).origin, List.getLast?_eq_some_getLast hne]
  rfl

/-- The end of a session depends on the settings through the origin alone. -/
theorem finish_congr {setup' : Setup}
    (h : s.effectiveOrigin setup'.settings = s.effectiveOrigin setup.settings) :
    s.finish setup' = s.finish setup := by
  rw [finish, finish, h]

namespace Run

variable {history : History} {origin origin' : Option Address} {code code' : CodeBuffer}

/-- A request for an address is made by a statement that names one, and covers its operand. -/
theorem exists_namesAddress (h : Run setup start history s) {r : Request}
    (hr : r ∈ s.references.requests) (hjump : r.reference.jump = .absolute) :
    ∃ m ∈ history.emissions, m.statement.NamesAddress setup.table.vocabulary ∧
      ∀ i, r.Covers i → i = m.position + 1 ∨ i = m.position + 2 := by
  obtain ⟨m, hm, hrequest, hposition, hsize⟩ := h.emission_of_request hr
  obtain ⟨⟨label, jump⟩, site⟩ := r
  cases hjump
  refine ⟨m, hm, ?_, fun i hi => ?_⟩
  · exact (Encoding.reference_absolute_iff (h.encodes hm)).mp
      ⟨label, (Emission.request?_eq_some.mp hrequest).1⟩
  · have hcovers : site + 1 ≤ i ∧ i < site + 1 + 2 := hi
    have hsite : m.position = site := hposition
    omega

/-- With another origin, no byte outside the operands that hold an address is another. -/
theorem getElem?_of_origins (h : Run setup start history s)
    (hwrite : Request.writeAll s.labels origin s.code s.references.requests = .ok code)
    (hwrite' : Request.writeAll s.labels origin' s.code s.references.requests = .ok code') {i : Nat}
    (hi : ∀ m ∈ history.emissions, m.statement.NamesAddress setup.table.vocabulary →
      i ≠ m.position + 1 ∧ i ≠ m.position + 2) :
    code'.toList[i]? = code.toList[i]? := by
  by_cases hcovered : ∃ r ∈ s.references.requests, r.Covers i
  · obtain ⟨r, hr, hcovers⟩ := hcovered
    have honly : ∀ r' ∈ s.references.requests, r'.Covers i → r' = r := fun r' hr' hcovers' =>
      h.request_eq_of_covers hr hr' hcovers hcovers'
    have hrelative : r.reference.jump = .relative := by
      cases hjump : r.reference.jump with
      | relative => rfl
      | absolute =>
        obtain ⟨m, hm, hnames, hplaces⟩ := h.exists_namesAddress hr hjump
        obtain ⟨hfirst, hsecond⟩ := hi m hm hnames
        exact ((hplaces i hcovers).elim hfirst hsecond).elim
    obtain ⟨bytes, hbytes⟩ := Request.exists_operand_of_writeAll hwrite hr
    have hbytes' : r.operand s.labels origin' = .ok bytes := by
      rw [Request.operand_of_relative hrelative origin' origin, hbytes]
    rw [Request.getElem?_writeAll_of_covers hwrite hr hbytes hcovers honly,
      Request.getElem?_writeAll_of_covers hwrite' hr hbytes' hcovers honly]
  · have hclear : ∀ r ∈ s.references.requests, ¬ r.Covers i := fun r hr hcovers =>
      hcovered ⟨r, hr, hcovers⟩
    rw [Request.getElem?_writeAll_of_not_covers hwrite hclear,
      Request.getElem?_writeAll_of_not_covers hwrite' hclear]

/-- With another origin, each address moves as much as the origin does. -/
theorem words_of_origins (h : Run setup start history s) {origin origin' : Address}
    (hwrite : Request.writeAll s.labels (some origin) s.code s.references.requests = .ok code)
    (hwrite' : Request.writeAll s.labels (some origin') s.code s.references.requests = .ok code')
    {m : Emission} (hm : m ∈ history.emissions)
    (hnames : m.statement.NamesAddress setup.table.vocabulary) :
    ∃ opcode lo hi lo' hi' : UInt8,
      (code.toList.drop m.position).take m.size = [opcode, lo, hi] ∧
      (code'.toList.drop m.position).take m.size = [opcode, lo', hi'] ∧
      ((lo'.toNat + 256 * hi'.toNat : Nat) : Int) - ((lo.toNat + 256 * hi.toNat : Nat) : Int) =
        origin'.toNat - origin.toNat := by
  obtain ⟨label, hreference⟩ := (Encoding.reference_absolute_iff (h.encodes hm)).mpr hnames
  have hrequest : m.request? = some ⟨⟨label, .absolute⟩, m.position⟩ :=
    Emission.request?_eq_some.mpr ⟨hreference, rfl⟩
  obtain ⟨opcode, bytes, hopcode, hoperand, hlinked⟩ := h.linked_request hwrite hm hrequest
  obtain ⟨opcode', bytes', hopcode', hoperand', hlinked'⟩ := h.linked_request hwrite' hm hrequest
  cases hopcode.symm.trans hopcode'
  obtain ⟨lo, hi, lo', hi', rfl, rfl, hsub⟩ := Request.operand_absolute_sub hoperand hoperand'
  exact ⟨opcode, lo, hi, lo', hi', hlinked, hlinked', hsub⟩

end Run

end Session

/-! ## Sources -/

/-- The second assembly has the statements of the first, for an origin that is further on: the words
that hold an address are as much further on, and nothing else in the code differs. -/
structure Assembly.Moved (v : Vocabulary) (statements : List Emission) (distance : Int)
    (asm asm' : Assembly) : Prop where
  symbols : asm'.symbols = asm.symbols
  listing : asm'.listing = asm.listing
  entries : asm.listing = statements.map Emission.entry
  size : asm'.code.size = asm.code.size
  bytes : ∀ i, (∀ m ∈ statements, m.statement.NamesAddress v →
    i ≠ m.position + 1 ∧ i ≠ m.position + 2) → asm'.code.toList[i]? = asm.code.toList[i]?
  words : ∀ m ∈ statements, m.statement.NamesAddress v → ∃ opcode lo hi lo' hi' : UInt8,
    asm.bytesOf m.entry = [opcode, lo, hi] ∧ asm'.bytesOf m.entry = [opcode, lo', hi'] ∧
    ((lo'.toNat + 256 * hi'.toNat : Nat) : Int) - ((lo.toNat + 256 * hi.toNat : Nat) : Int) =
      distance

namespace Session

variable {setup : Setup} {s : Session}

theorem Run.moved {history : History} (h : Run setup start history s) (horigin : s.origin = none)
    {origin origin' : Address} {asm asm' : Assembly}
    (hasm : (s.finish (setup.withOrigin (some origin))).2 = .ok asm)
    (hasm' : (s.finish (setup.withOrigin (some origin'))).2 = .ok asm') :
    asm.Moved setup.table.vocabulary history.emissions (origin'.toNat - origin.toNat) asm' := by
  obtain ⟨hwrite, heffective, hsymbols, hlisting⟩ := finish_eq_ok h.filled_start hasm
  obtain ⟨hwrite', heffective', hsymbols', hlisting'⟩ := finish_eq_ok h.filled_start hasm'
  rw [effectiveOrigin, horigin] at heffective heffective'
  rw [heffective] at hwrite
  rw [heffective'] at hwrite'
  have hsize := Request.size_writeAll hwrite
  have hsize' := Request.size_writeAll hwrite'
  refine ⟨hsymbols'.trans hsymbols.symm, hlisting'.trans hlisting.symm, ?_,
    hsize'.trans hsize.symm, ?_, ?_⟩
  · rw [hlisting, h.listing_start]
  · intro i hi
    exact h.getElem?_of_origins hwrite hwrite' hi
  · intro m hm hnames
    rw [h.bytesOf_entry hsize hm, h.bytesOf_entry hsize' hm]
    exact h.words_of_origins hwrite hwrite' hm hnames

/-- A session that waits for no address ends alike for every origin. -/
theorem Run.finish_of_no_address {history : History} (h : Run setup start history s)
    (hnone : ∀ m ∈ history.emissions, ¬ m.statement.NamesAddress setup.table.vocabulary)
    (origin origin' : Option Address) :
    (s.finish (setup.withOrigin origin')).2.map (fun asm => (asm.code, asm.symbols, asm.listing)) =
      (s.finish (setup.withOrigin origin)).2.map fun asm =>
        (asm.code, asm.symbols, asm.listing) := by
  have hrelative : ∀ r ∈ s.references.requests, r.reference.jump = .relative := by
    intro r hr
    cases hjump : r.reference.jump with
    | relative => rfl
    | absolute =>
      obtain ⟨m, hm, hnames, -⟩ := h.exists_namesAddress hr hjump
      exact absurd hnames (hnone m hm)
  rw [finish_outcome h.filled_start, finish_outcome h.filled_start,
    Request.writeAll_of_relative hrelative _ (s.effectiveOrigin (setup.withOrigin origin).settings)]
  cases Request.writeAll s.labels (s.effectiveOrigin (setup.withOrigin origin).settings) s.code
    s.references.requests <;> rfl

/-- The lines of a source are read before the origin of the settings counts. -/
theorem assemble_withOrigin (setup : Setup) (origin : Option Address) (source : Text) :
    assemble (setup.withOrigin origin) source =
      (start.advance setup source.lines >>= fun after =>
        (after.finish (setup.withOrigin origin)).2) := by
  rw [assemble, trace, run_eq_advance, advance_withOrigin]

/-- If a line of a source sets the origin, that of the settings does not count.  If none does, two
origins for which the source can be assembled give the same symbols, listing and code, but for the
words of the jumps that name the address of a label, which are as far apart as the origins; and if
there is no such jump, what is assembled and whether it can be does not depend on an origin or on
there being one. -/
theorem origin_noninterference (setup : Setup) (source : Text) :
    ((∃ address, some (.load address) ∈ start.lineSteps setup source.lines) →
      ∀ origin origin' : Option Address,
        assemble (setup.withOrigin origin') source = assemble (setup.withOrigin origin) source) ∧
    ((∀ address, some (.load address) ∉ start.lineSteps setup source.lines) →
      (∀ (origin origin' : Address) (asm asm' : Assembly),
        assemble (setup.withOrigin (some origin)) source = .ok asm →
        assemble (setup.withOrigin (some origin')) source = .ok asm' →
        asm.Moved setup.table.vocabulary (start.steps setup source.lines).emissions
          (origin'.toNat - origin.toNat) asm') ∧
      ((∀ m ∈ (start.steps setup source.lines).emissions,
          ¬ m.statement.NamesAddress setup.table.vocabulary) →
        ∀ origin origin' : Option Address,
          (assemble (setup.withOrigin origin') source).map
              (fun asm => (asm.code, asm.symbols, asm.listing)) =
            (assemble (setup.withOrigin origin) source).map
              fun asm => (asm.code, asm.symbols, asm.listing))) := by
  simp only [assemble_withOrigin]
  -- a refused line is refused for every origin, so only the end of the session is left
  cases hafter : start.advance setup source.lines with
  | error failure =>
    refine ⟨fun _ _ _ => rfl, fun _ => ⟨fun origin origin' asm asm' hasm _ => ?_, fun _ _ _ => rfl⟩⟩
    cases hasm
  | ok after =>
    refine ⟨fun hset origin origin' => ?_, fun hnone => ⟨?_, fun hplain origin origin' => ?_⟩⟩
    · obtain ⟨address, haddress⟩ :=
        Option.isSome_iff_exists.mp (isSome_origin_of_advance hafter hset)
      have hsame : after.finish (setup.withOrigin origin') =
          after.finish (setup.withOrigin origin) := by
        refine finish_congr ?_
        rw [effectiveOrigin, effectiveOrigin, haddress, Option.some_or, Option.some_or]
      exact congrArg Prod.snd hsame
    · intro origin origin' asm asm' hasm hasm'
      exact (run_of_advance hafter).moved (origin_of_advance hafter hnone) hasm hasm'
    · exact (run_of_advance hafter).finish_of_no_address hplain origin origin'

/-- A source with a jump to an address and a jump over a distance. -/
def jumps : Text := ":top\njp :top\njr :top".toList

/-- What `jumps` amount to, with the two bytes of the address. -/
def jumpsAssembly (origin : Address) (lo hi : UInt8) : Assembly where
  code := ⟨#[0xC3, lo, hi, 0x18, 0xFB]⟩
  origin := some origin
  symbols := Dictionary.empty.insert "top".toList 0
  listing := [⟨2, 0, 3, "jp :top".toList⟩, ⟨3, 3, 2, "jr :top".toList⟩]

/-- The word of the first jump moves with the origin; with an origin of its own the source does not
depend on that of the settings, and the second jump by itself needs none. -/
theorem jumps_noninterference :
    (∀ address, some (.load address) ∉ start.lineSteps sampleSetup jumps.lines) ∧
    assemble (sampleSetup.withOrigin (some 0x4000)) jumps = .ok (jumpsAssembly 0x4000 0x00 0x40) ∧
    assemble (sampleSetup.withOrigin (some 0x1234)) jumps = .ok (jumpsAssembly 0x1234 0x34 0x12) ∧
    (jumpsAssembly 0x4000 0x00 0x40).Moved InstructionSet.vocabulary
      (start.steps sampleSetup jumps.lines).emissions (0x1234 - 0x4000)
      (jumpsAssembly 0x1234 0x34 0x12) ∧
    some (.load 0x100) ∈ start.lineSteps sampleSetup (Text.lines ("org 100h\n".toList ++ jumps)) ∧
    assemble (sampleSetup.withOrigin none) ("org 100h\n".toList ++ jumps) =
      assemble (sampleSetup.withOrigin (some 0x4000)) ("org 100h\n".toList ++ jumps) ∧
    (assemble (sampleSetup.withOrigin none) ":top\njr :top".toList).map
        (fun asm => (asm.code, asm.symbols, asm.listing)) =
      (assemble (sampleSetup.withOrigin (some 0x4000)) ":top\njr :top".toList).map
        fun asm => (asm.code, asm.symbols, asm.listing) := by
  have hsteps : start.lineSteps sampleSetup jumps.lines =
      [some (.declare "top".toList),
        some (.emit ⟨"jp".toList, [.label "top".toList]⟩
          ⟨[0xC3, 0, 0], .numbered 1 .word, some ⟨"top".toList, .absolute⟩⟩),
        some (.emit ⟨"jr".toList, [.label "top".toList]⟩
          ⟨[0x18, 0], .numbered 1 .byte, some ⟨"top".toList, .relative⟩⟩)] := by
    decide +kernel
  have hnone : ∀ address, some (.load address) ∉ start.lineSteps sampleSetup jumps.lines := by
    rw [hsteps]
    simp
  have hlow : assemble (sampleSetup.withOrigin (some 0x4000)) jumps =
      .ok (jumpsAssembly 0x4000 0x00 0x40) := by
    decide +kernel
  have hhigh : assemble (sampleSetup.withOrigin (some 0x1234)) jumps =
      .ok (jumpsAssembly 0x1234 0x34 0x12) := by
    decide +kernel
  have hload : some (.load 0x100) ∈
      start.lineSteps sampleSetup (Text.lines ("org 100h\n".toList ++ jumps)) := by
    decide +kernel
  have hnoneAlone : ∀ address,
      some (.load address) ∉ start.lineSteps sampleSetup (Text.lines ":top\njr :top".toList) := by
    have halone : start.lineSteps sampleSetup (Text.lines ":top\njr :top".toList) =
        [some (.declare "top".toList),
          some (.emit ⟨"jr".toList, [.label "top".toList]⟩
            ⟨[0x18, 0], .numbered 1 .byte, some ⟨"top".toList, .relative⟩⟩)] := by
      decide +kernel
    rw [halone]
    simp
  have hplain : ∀ m ∈ (start.steps sampleSetup (Text.lines ":top\njr :top".toList)).emissions,
      ¬ m.statement.NamesAddress InstructionSet.vocabulary := by
    have hmnemonics : ((start.steps sampleSetup (Text.lines ":top\njr :top".toList)).emissions.map
        fun m => m.statement.mnemonic) = ["jr".toList] := by
      decide +kernel
    intro m hm hnames
    have hmnemonic : m.statement.mnemonic = "jr".toList := by
      have hmem := List.mem_map_of_mem (f := fun m : Emission => m.statement.mnemonic) hm
      rw [hmnemonics] at hmem
      exact List.mem_singleton.mp hmem
    have hjump := hnames.1
    rw [hmnemonic] at hjump
    exact absurd hjump (by decide)
  obtain ⟨-, hmoved⟩ := origin_noninterference sampleSetup jumps
  obtain ⟨hset, -⟩ := origin_noninterference sampleSetup ("org 100h\n".toList ++ jumps)
  obtain ⟨-, halike⟩ := origin_noninterference sampleSetup ":top\njr :top".toList
  exact ⟨hnone, hlow, hhigh, (hmoved hnone).1 0x4000 0x1234 _ _ hlow hhigh, hload,
    hset ⟨0x100, hload⟩ (some 0x4000) none, (halike hnoneAlone).2 hplain (some 0x4000) none⟩

end Session

end Z80
