import Z80.CommandLine.Assemble
import Z80.Report
import Z80.Proofs.MachineCode
import Z80.Proofs.Numeral
import Z80.Proofs.Statement
import Z80.Proofs.Tiling

/-!
# Reports and dumps

A report shows the code line by line, and a dump shows it as a whole.  The two agree: each line is
at the address of its statement and shows all of its bytes, of which there is at least one, so the
next line is as much further on, and the dumps of the lines are the dump of the code.
-/

namespace Z80

/-! ## Statements have code -/

namespace Encoding

variable {table : OpcodeTable} {s : Statement} {encoding : Encoding}

theorem length_dataByte {operand : Operand} {bytes : List UInt8}
    (h : dataByte operand = .ok bytes) :
    bytes.length = 1 := by
  rw [dataByte.eq_def] at h
  split at h
  · obtain ⟨value, -, hbytes⟩ := bind_eq_ok.mp h
    rw [(Width.encode_eq_ok hbytes).2, length_littleEndian]
    rfl
  · cases h

/-- A list of values has a byte for each, and there is a value. -/
theorem dataBytes_ne_nil (h : dataBytes s = .ok encoding) : encoding.bytes ≠ [] := by
  rw [dataBytes] at h
  split at h
  · cases h
  · next hoperands =>
    obtain ⟨parts, hparts, h⟩ := bind_eq_ok.mp h
    cases h
    rw [mapM_eq_ok] at hparts
    generalize s.operands = operands at hoperands hparts
    cases hparts with
    | nil => exact absurd rfl hoperands
    | cons hfirst _ =>
      refine List.append_ne_nil_of_left_ne_nil (List.ne_nil_of_length_pos ?_) _
      rw [length_dataByte hfirst]
      exact Nat.one_pos

/-- A message has a character, and a character has a byte. -/
theorem dataText_ne_nil (h : dataText s = .ok encoding) : encoding.bytes ≠ [] := by
  rw [dataText] at h
  split at h
  · cases h
  · next hmessage =>
    cases h
    exact Text.utf8_ne_nil fun hnil => hmessage (List.isEmpty_iff.mpr hnil)

theorem bytes_ne_nil_of_data (h : placeholder table s = .ok encoding)
    (hdata : encoding.form = .data) :
    encoding.bytes ≠ [] := by
  rw [placeholder] at h
  split at h
  · exact dataBytes_ne_nil h
  · split at h
    · exact dataText_ne_nil h
    · rcases instruction_eq_ok h with ⟨bytes, -, rfl⟩ | ⟨key, operand, rule, value, -, -, -, rfl⟩
      · cases hdata
      · cases hdata

end Encoding

/-- No statement of the instruction set has an empty code. -/
theorem InstructionSet.bytes_ne_nil {s : Statement} {encoding : Encoding}
    (h : Encoding.ofStatement table s = .ok encoding) : encoding.bytes ≠ [] := by
  by_cases hdata : encoding.form = .data
  · obtain ⟨-, hbody, -⟩ := Encoding.ofStatement_eq_ok h
    exact (Encoding.bytes_ne_nil_of_data hbody hdata :)
  · exact Coded.bytes_ne_nil ⟨s, encoding, h, hdata⟩

/-! ## Lines of a report -/

/-- The number of bytes that a line shows, each with two digits. -/
def Report.Line.count (l : Report.Line) : Nat := (l.bytes.filter (· ≠ ' ')).length / 2

/-- Where a line is, and how many bytes it shows. -/
def Report.Line.span (l : Report.Line) : Nat × Nat := (l.address.toNat, l.count)

namespace Assembly

variable {asm : Assembly}

/-- Where code is loaded.  Code without an origin is loaded at zero. -/
def base (asm : Assembly) : Nat := (asm.origin.getD 0).toNat

/-- Addresses of code that leaves room for an origin do not wrap around. -/
theorem toNat_addressOf {position : Nat} (h : position < 2 ^ 32 - 65536) :
    (asm.addressOf position).toNat = asm.base + position := by
  have hbase : asm.base < 2 ^ 16 := (asm.origin.getD 0).toNat_lt
  rw [addressOf, UInt32.toNat_add, UInt16.toNat_toUInt32, UInt32.toNat_ofNat']
  change (asm.base + position % 2 ^ 32) % 2 ^ 32 = asm.base + position
  omega

/-- The symbols of a report are those of the assembly. -/
theorem mem_report_symbols {name : Text} {place : Nat} :
    (∃ x ∈ asm.report.symbols, x.name = name ∧ x.position = place) ↔
      asm.symbols.get? name = some place := by
  rw [← Dictionary.mem_entries]
  constructor
  · rintro ⟨x, hx, rfl, rfl⟩
    obtain ⟨e, he, rfl⟩ := List.mem_map.mp hx
    exact he
  · intro hentry
    exact ⟨_, List.mem_map_of_mem hentry, rfl, rfl⟩

theorem address_report_symbol (hplaces : ∀ name place, asm.symbols.get? name = some place →
      place < 2 ^ 32 - 65536) :
    ∀ x ∈ asm.report.symbols, x.address.toNat = asm.base + x.position := by
  intro x hx
  obtain ⟨⟨name, place⟩, hentry, rfl⟩ := List.mem_map.mp hx
  exact toNat_addressOf (hplaces name place (Dictionary.mem_entries.mp hentry))

end Assembly

/-- Where an emission is in code that is loaded somewhere, and how many bytes it has. -/
def Emission.span (base : Nat) (m : Emission) : Nat × Nat := (base + m.position, m.size)

namespace Session.Run

variable {setup : Setup} {history : History} {s : Session} {asm : Assembly}

theorem length_bytesOf_entry (h : Run setup start history s) (hsize : asm.code.size = s.code.size)
    {m : Emission} (hm : m ∈ history.emissions) : (asm.bytesOf m.entry).length = m.size := by
  have hstop := h.tiles_start.stop_le hm
  rw [← h.size_start, ← hsize, Emission.stop] at hstop
  rw [h.bytesOf_entry hsize hm, List.length_take, List.length_drop, CodeBuffer.length_toList]
  omega

/-- The lines of a report are where the statements are, and show as many bytes as these have. -/
theorem spans_report (h : Run setup start history s) (hsize : asm.code.size = s.code.size)
    (hlisting : asm.listing = history.emissions.map Emission.entry)
    (hmemory : asm.code.size < 2 ^ 32 - 65536) :
    asm.report.lines.map Report.Line.span = history.emissions.map (Emission.span asm.base) := by
  rw [Assembly.report, hlisting, List.map_map, List.map_map]
  refine List.map_congr_left fun m hm => ?_
  have hstop := h.tiles_start.stop_le hm
  rw [← h.size_start, ← hsize, Emission.stop] at hstop
  refine Prod.ext (Assembly.toNat_addressOf (show m.position < 2 ^ 32 - 65536 by omega)) ?_
  change ((Numeral.hexDump (asm.bytesOf m.entry)).filter (· ≠ ' ')).length / 2 = m.size
  rw [Numeral.length_digits_hexDump, h.length_bytesOf_entry hsize hm]
  exact Nat.mul_div_cancel_left _ (by decide)

/-- Each emission is where the one before it stops. -/
theorem isChain_span (h : Run setup start history s) (base : Nat) :
    (history.emissions.map (Emission.span base)).IsChain fun x y => y.1 = x.1 + x.2 := by
  rw [List.isChain_map]
  refine h.tiles_start.isChain.imp fun m m' hnext => ?_
  rw [Emission.span, Emission.span, hnext, Nat.add_assoc]

theorem getLast?_span (h : Run setup start history s) {base : Nat} {x : Nat × Nat}
    (hx : (history.emissions.map (Emission.span base)).getLast? = some x) :
    x.1 + x.2 = base + s.code.size := by
  rw [List.getLast?_map] at hx
  obtain ⟨m, hm, rfl⟩ := Option.map_eq_some_iff.mp hx
  have hstop : m.position + m.size = s.code.size := by
    rw [h.size_start]
    exact h.tiles_start.getLast?_stop hm
  rw [Emission.span, Nat.add_assoc, hstop]

/-- If every statement has code, the dumps of the lines are the dump of the code. -/
theorem dumps_report (h : Run setup start history s) (hsize : asm.code.size = s.code.size)
    (hlisting : asm.listing = history.emissions.map Emission.entry)
    (hcode : ∀ m ∈ history.emissions, m.encoding.bytes ≠ []) :
    List.intercalate [' '] (asm.report.lines.map Report.Line.bytes) =
      Numeral.hexDump asm.code.toList := by
  have hdumps : asm.report.lines.map Report.Line.bytes =
      (asm.listing.map asm.bytesOf).map Numeral.hexDump := by
    rw [Assembly.report, List.map_map, List.map_map]
    rfl
  have hflatten : (asm.listing.map asm.bytesOf).flatten = asm.code.toList := by
    rw [← List.flatMap_def, hlisting, h.flatMap_bytesOf hsize]
  rw [hdumps, Numeral.intercalate_hexDump, hflatten]
  intro bytes hbytes
  rw [hlisting, List.map_map] at hbytes
  obtain ⟨m, hm, rfl⟩ := List.mem_map.mp hbytes
  refine List.ne_nil_of_length_pos ?_
  rw [Function.comp_apply, h.length_bytesOf_entry hsize hm]
  exact List.length_pos_of_ne_nil (hcode m hm)

end Session.Run

namespace InstructionSet

open Session CommandLine

/-- What a report says of an assembly whose addresses fit in 32 bits.  The dumps of its lines, with
spaces between them, are the dump of the code, as the assembler writes it; its size is that of the
code.  Each line is at the address of its entry, and the next one, or the end of the code, is
further on by the number of bytes that it shows, which is not zero.  The symbols go by name, each
once, with their addresses. -/
theorem report_agrees_with_dump (settings : Settings) (source : Text) (asm : Assembly)
    (h : assemble ⟨table, settings⟩ source = .ok asm) (hmemory : asm.code.size < 2 ^ 32 - 65536) :
    List.intercalate [' '] (asm.report.lines.map Report.Line.bytes) =
      Numeral.hexDump asm.code.toList ∧
    (∀ o : Assemble.Options, o.hex = true → Assemble.image o asm.code =
      Text.utf8 (List.intercalate [' '] (asm.report.lines.map Report.Line.bytes) ++ ['\n'])) ∧
    asm.report.size = asm.code.size ∧
    asm.report.lines.map (·.address.toNat) =
      asm.listing.map (fun e => (asm.origin.getD 0).toNat + e.position) ∧
    (asm.report.lines.IsChain fun l l' => l'.address.toNat = l.address.toNat + l.count) ∧
    (∀ l, asm.report.lines.getLast? = some l →
      l.address.toNat + l.count = (asm.origin.getD 0).toNat + asm.code.size) ∧
    (∀ l ∈ asm.report.lines, l.count ≠ 0) ∧
    (asm.report.symbols.Pairwise fun a b => a.name < b.name) ∧
    (∀ name place, (∃ x ∈ asm.report.symbols, x.name = name ∧ x.position = place) ↔
      asm.symbols.get? name = some place) ∧
    asm.report.symbols.length = asm.symbols.size ∧
    ∀ x ∈ asm.report.symbols, x.address.toNat = (asm.origin.getD 0).toNat + x.position := by
  obtain ⟨s, hs, hfinish⟩ := advance_of_assemble h
  have hrun := run_of_advance hs
  obtain ⟨hwrite, -, hsymbols, hlisting⟩ := finish_eq_ok hrun.filled_start hfinish
  have hsize := Request.size_writeAll hwrite
  rw [hrun.listing_start] at hlisting
  have hcode : ∀ m ∈ (start.steps ⟨table, settings⟩ source.lines).emissions,
      m.encoding.bytes ≠ [] :=
    fun m hm => bytes_ne_nil (hrun.encodes hm)
  have hspans := hrun.spans_report hsize hlisting hmemory
  have hdumps := hrun.dumps_report hsize hlisting hcode
  refine ⟨hdumps, fun o ho => ?_, rfl, ?_, ?_, ?_, ?_, ?_, ?_, List.length_map _, ?_⟩
  · rw [hdumps, Assemble.image, if_pos ho]
  · have haddresses := congrArg (List.map Prod.fst) hspans
    rw [List.map_map, List.map_map] at haddresses
    rw [hlisting, List.map_map]
    exact haddresses
  · have hchain := hrun.isChain_span asm.base
    rwa [← hspans, List.isChain_map] at hchain
  · intro l hl
    have hlast : (asm.report.lines.map Report.Line.span).getLast? = some l.span := by
      rw [List.getLast?_map, hl]
      rfl
    rw [hspans] at hlast
    rw [hsize]
    exact hrun.getLast?_span hlast
  · intro l hl hzero
    have hmem := List.mem_map_of_mem (f := Report.Line.span) hl
    rw [hspans] at hmem
    obtain ⟨m, hm, hspan⟩ := List.mem_map.mp hmem
    have hcount : m.size = l.count := congrArg Prod.snd hspan
    exact hcode m hm (List.eq_nil_of_length_eq_zero (hcount.trans hzero))
  · exact asm.symbols.sorted.map _ fun _ _ hlt => hlt
  · exact fun name place => Assembly.mem_report_symbols
  · refine Assembly.address_report_symbol fun name place hplace => ?_
    rw [hsymbols] at hplace
    have hinside : place ≤ s.code.size := hrun.labelsInside_start name place hplace
    omega

/-- An instruction, some data, and a jump to the label in front of them. -/
def reported : Text := "org 8000h\n:go\nld a,5\ndefb 1,2\njp :go".toList

def reportedAssembly : Assembly where
  code := ⟨#[0x3E, 0x05, 0x01, 0x02, 0xC3, 0x00, 0x80]⟩
  origin := some 0x8000
  symbols := Dictionary.empty.insert "go".toList 0
  listing := [⟨3, 0, 2, "ld a,5".toList⟩, ⟨4, 2, 2, "defb 1,2".toList⟩, ⟨5, 4, 3, "jp :go".toList⟩]

/-- The jump is shown with the address that its label stands for. -/
theorem reportedAssembly_dumps :
    assemble ⟨table, {}⟩ reported = .ok reportedAssembly ∧
    reportedAssembly.code.size < 2 ^ 32 - 65536 ∧
    reportedAssembly.report.lines.map Report.Line.bytes =
      ["3e 05".toList, "01 02".toList, "c3 00 80".toList] ∧
    List.intercalate [' '] (reportedAssembly.report.lines.map Report.Line.bytes) =
      Numeral.hexDump reportedAssembly.code.toList ∧
    reportedAssembly.report.lines.map (·.address.toNat) = [0x8000, 0x8002, 0x8004] := by
  have hassemble : assemble ⟨table, {}⟩ reported = .ok reportedAssembly := by decide +kernel
  have hmemory : reportedAssembly.code.size < 2 ^ 32 - 65536 := by decide
  obtain ⟨hdumps, -, -, haddresses, -⟩ :=
    report_agrees_with_dump {} reported reportedAssembly hassemble hmemory
  exact ⟨hassemble, hmemory, by decide +kernel, hdumps, haddresses⟩

end InstructionSet

end Z80
