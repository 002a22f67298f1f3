import Mathlib.Data.List.Forall2
import Z80.Proofs.Pending

/-!
# Linked code

In the code of an assembly, each statement has the bytes of its encoding, with the value of the
label that it names in the place of the zeros: the origin plus the position of the label in a word,
or the distance from the end of the statement to the label in a byte.
-/

namespace Z80

namespace Request

variable {labels : Labels} {origin : Option Address} {label : Text} {site : Nat}
    {bytes : List UInt8}

/-- An address is the sum of the origin and the position of the label. -/
theorem operand_absolute_value
    (h : (Request.mk ⟨label, .absolute⟩ site).operand labels origin = .ok bytes)
    (hlabels : ∀ place, labels.get? label = some place → place < 0x8000000000000000) :
    ∃ (start : Address) (place : Nat) (lo hi : UInt8), origin = some start ∧
      labels.get? label = some place ∧ bytes = [lo, hi] ∧
      lo.toNat + 256 * hi.toNat = start.toNat + place ∧ start.toNat + place ≤ 65535 := by
  obtain ⟨start, a, place, horigin, hplace, ha, rfl⟩ := operand_absolute h
  obtain ⟨hvalue, hmax⟩ := address?_eq_some ha
  obtain ⟨lo, hi, hbytes, hsum⟩ := littleEndian_address a
  have hlt := hlabels place hplace
  have hstart := start.toNat_lt
  have hself :=
    signed64_eq_self_of_nonneg (n := start.toNat + place) (by omega) (by omega) (by omega)
  exact ⟨start, place, lo, hi, horigin, hplace, hbytes, by omega, by omega⟩

/-- A distance is the difference of two positions. -/
theorem operand_relative_value
    (h : (Request.mk ⟨label, .relative⟩ site).operand labels origin = .ok bytes)
    (hlabels : ∀ place, labels.get? label = some place → place < 0x8000000000000000)
    (hsite : site + 2 < 0x8000000000000000) :
    ∃ (place : Nat) (b : UInt8), labels.get? label = some place ∧ bytes = [b] ∧
      b.toInt8.toInt = place - (site + 2) := by
  obtain ⟨place, b, hplace, hb, rfl⟩ := operand_relative h
  have hlt := hlabels place hplace
  have hself := signed64_eq_self (n := place - (site + 2)) (by omega) (by omega)
  refine ⟨place, b, hplace, rfl, ?_⟩
  rw [displacement?_eq_some hb, hself]

end Request

/-! ## Bytes at a place -/

theorem drop_take_eq_cons {l : List UInt8} {position : Nat} {opcode : UInt8} {bytes : List UInt8}
    (hopcode : l[position]? = some opcode)
    (hbytes : ∀ j < bytes.length, l[position + 1 + j]? = bytes[j]?) :
    (l.drop position).take (1 + bytes.length) = opcode :: bytes := by
  apply List.ext_getElem?
  intro k
  cases k with
  | zero => rw [List.getElem?_take_of_lt (by omega), List.getElem?_drop, Nat.add_zero, hopcode]; rfl
  | succ k =>
    rw [List.getElem?_cons_succ]
    by_cases hk : k < bytes.length
    · rw [List.getElem?_take_of_lt (by omega), List.getElem?_drop, ← hbytes k hk]
      congr 1
      omega
    · rw [List.getElem?_take_eq_none (by omega), List.getElem?_eq_none (by omega)]

/-! ## Linked statements -/

/-- The bytes of an entry are those of its encoding, with the value of its label. -/
def Assembly.Links (asm : Assembly) (e : Entry) (encoding : Encoding) : Prop :=
  match encoding.reference with
  | none => asm.bytesOf e = encoding.bytes
  | some ⟨label, .absolute⟩ =>
    ∃ (origin : Address) (place : Nat) (opcode lo hi : UInt8),
      asm.origin = some origin ∧ asm.symbols.get? label = some place ∧
      encoding.bytes.head? = some opcode ∧ asm.bytesOf e = [opcode, lo, hi] ∧
      lo.toNat + 256 * hi.toNat = origin.toNat + place ∧ origin.toNat + place ≤ 65535
  | some ⟨label, .relative⟩ =>
    ∃ (place : Nat) (opcode b : UInt8),
      asm.symbols.get? label = some place ∧
      encoding.bytes.head? = some opcode ∧ asm.bytesOf e = [opcode, b] ∧
      b.toInt8.toInt = place - (e.position + 2)

namespace Session.Run

variable {setup : Setup} {history : History} {s : Session} {code : CodeBuffer}
  {origin : Option Address}

/-- A byte that belongs to no label is as it was emitted. -/
theorem getElem?_linked (h : Run setup start history s)
    (hwrite : Request.writeAll s.labels origin s.code s.references.requests = .ok code) {i : Nat}
    (hi : ∀ m ∈ history.emissions, m.encoding.reference ≠ none →
      ¬ (m.position < i ∧ i < m.stop)) :
    code.toList[i]? = (Emission.bytes history.emissions)[i]? := by
  rw [← h.code_start]
  refine Request.getElem?_writeAll_of_not_covers hwrite fun r hr hcovers => ?_
  obtain ⟨m, hm, hrequest, hposition, hsize⟩ := h.emission_of_request hr
  have hreference := (Emission.request?_eq_some.mp hrequest).1
  refine hi m hm (by rw [hreference]; exact nofun) ?_
  exact (Emission.covers_iff hposition hsize).mp hcovers

/-- A statement that names no label is as it was emitted. -/
theorem linked_plain (h : Run setup start history s)
    (hwrite : Request.writeAll s.labels origin s.code s.references.requests = .ok code)
    {m : Emission} (hm : m ∈ history.emissions) (hplain : m.encoding.reference = none) :
    (code.toList.drop m.position).take m.size = m.encoding.bytes := by
  rw [← h.tiles_start.drop_take hm]
  apply List.ext_getElem?
  intro k
  by_cases hk : k < m.size
  · rw [List.getElem?_take_of_lt hk, List.getElem?_take_of_lt hk, List.getElem?_drop,
      List.getElem?_drop]
    refine h.getElem?_linked hwrite fun m' hm' hreference hinside => ?_
    have hown : m.position ≤ m.position + k ∧ m.position + k < m.stop := by
      rw [Emission.stop]
      omega
    have hsame := h.tiles_start.eq_of_shared hm hm' hown ⟨by omega, hinside.2⟩
    exact hreference (hsame ▸ hplain)
  · rw [List.getElem?_take_eq_none (by omega), List.getElem?_take_eq_none (by omega)]

/-- A statement that names a label keeps its opcode, and has what its request writes after it. -/
theorem linked_request (h : Run setup start history s)
    (hwrite : Request.writeAll s.labels origin s.code s.references.requests = .ok code)
    {m : Emission} (hm : m ∈ history.emissions) {r : Request} (hrequest : m.request? = some r) :
    ∃ opcode bytes, m.encoding.bytes.head? = some opcode ∧ r.operand s.labels origin = .ok bytes ∧
      (code.toList.drop m.position).take m.size = opcode :: bytes := by
  have hr : r ∈ s.references.requests := (h.requests_start r).mpr ⟨m, hm, hrequest⟩
  have hsite : r.site = m.position := (Emission.request?_eq_some.mp hrequest).2
  have hsize := Emission.size_of_request (h.encodes hm) hrequest
  obtain ⟨opcode, hencoded⟩ := Emission.bytes_of_request (h.encodes hm) hrequest
  obtain ⟨bytes, hbytes⟩ := Request.exists_operand_of_writeAll hwrite hr
  have hlength := Request.length_operand hbytes
  refine ⟨opcode, bytes, by rw [hencoded]; rfl, hbytes, ?_⟩
  rw [hsize, ← hlength]
  refine drop_take_eq_cons ?_ fun j hj => ?_
  · -- no statement that names a label holds the opcode of this one after its own
    have hkept : code.toList[m.position]? = (Emission.bytes history.emissions)[m.position]? := by
      refine h.getElem?_linked hwrite fun m' hm' _ hinside => ?_
      have hown : m.position ≤ m.position ∧ m.position < m.stop := by
        rw [Emission.stop]
        omega
      have hsame := h.tiles_start.eq_of_shared hm hm' hown ⟨by omega, hinside.2⟩
      rw [hsame] at hinside
      omega
    have hfirst := h.tiles_start.getElem?_bytes hm (i := 0) (by omega)
    rw [Nat.add_zero, hencoded] at hfirst
    rw [hkept, hfirst]
    rfl
  · have hcovers : r.Covers (m.position + 1 + j) := by
      rw [Request.Covers]
      omega
    rw [Request.getElem?_writeAll_of_covers hwrite hr hbytes hcovers fun r' hr' hcovers' =>
      h.request_eq_of_covers hr hr' hcovers hcovers']
    congr 1
    omega

theorem bytesOf_entry (h : Run setup start history s) {asm : Assembly}
    (hsize : asm.code.size = s.code.size) {m : Emission} (hm : m ∈ history.emissions) :
    asm.bytesOf m.entry = (asm.code.toList.drop m.position).take m.size := by
  have hstop := h.tiles_start.stop_le hm
  rw [← h.size_start, ← hsize] at hstop
  exact Assembly.bytesOf_eq hstop

/-- Every statement of an assembly is linked. -/
theorem links (h : Run setup start history s) {asm : Assembly}
    (hfinish : (s.finish setup).2 = .ok asm) (hmemory : asm.code.size < 0x8000000000000000)
    {m : Emission} (hm : m ∈ history.emissions) : asm.Links m.entry m.encoding := by
  obtain ⟨hwrite, -, hsymbols, -⟩ := finish_eq_ok h.filled_start hfinish
  have hsize := Request.size_writeAll hwrite
  have hlabels : ∀ name place, s.labels.get? name = some place → place < 0x8000000000000000 := by
    intro name place hplace
    have hinside : place ≤ s.code.size := h.labelsInside_start name place hplace
    omega
  rw [Assembly.Links, hsymbols, h.bytesOf_entry hsize hm]
  split
  · next hplain => exact h.linked_plain hwrite hm hplain
  · next label hreference =>
    have hrequest : m.request? = some ⟨⟨label, .absolute⟩, m.position⟩ :=
      Emission.request?_eq_some.mpr ⟨hreference, rfl⟩
    obtain ⟨opcode, bytes, hopcode, hoperand, hlinked⟩ := h.linked_request hwrite hm hrequest
    obtain ⟨start, place, lo, hi, horigin, hplace, rfl, hsum, hmax⟩ :=
      Request.operand_absolute_value hoperand (hlabels label)
    exact ⟨start, place, opcode, lo, hi, horigin, hplace, hopcode, hlinked, hsum, hmax⟩
  · next label hreference =>
    have hrequest : m.request? = some ⟨⟨label, .relative⟩, m.position⟩ :=
      Emission.request?_eq_some.mpr ⟨hreference, rfl⟩
    obtain ⟨opcode, bytes, hopcode, hoperand, hlinked⟩ := h.linked_request hwrite hm hrequest
    have hr := (h.requests_start _).mpr ⟨m, hm, hrequest⟩
    have hinside : m.position + 1 + 1 ≤ s.code.size := h.request_inside hr
    obtain ⟨place, b, hplace, rfl, hdistance⟩ :=
      Request.operand_relative_value hoperand (hlabels label) (by omega)
    exact ⟨place, opcode, b, hplace, hopcode, hlinked, hdistance⟩

end Session.Run

namespace Session

/-- Whatever lines a session has taken, if it ends in an assembly whose code fits in memory: the
origin is the one that was set last, or else that of the settings; a symbol stands where its label
was declared last; the entries are the statements that were emitted, in order, each linked; and no
byte outside the operand of a label differs from what was emitted. -/
theorem assembly_linked (setup : Setup) (lines : List Text) (asm : Assembly)
    (hfinish : ((start.replay setup lines).1.finish setup).2 = .ok asm)
    (hmemory : asm.code.size < 0x8000000000000000) :
    asm.origin = (start.steps setup lines).origins.getLast?.or setup.settings.origin ∧
    (∀ name, asm.symbols.get? name = (start.steps setup lines).lastDeclared? name) ∧
    List.Forall₂
      (fun e m => e = m.entry ∧ Encoding.ofStatement setup.table m.statement = .ok m.encoding ∧
        asm.Links e m.encoding)
      asm.listing (start.steps setup lines).emissions ∧
    asm.code.size = (Emission.bytes (start.steps setup lines).emissions).length ∧
    ∀ i, (∀ m ∈ (start.steps setup lines).emissions, m.encoding.reference ≠ none →
        ¬ (m.position < i ∧ i < m.stop)) →
      asm.code.toList[i]? = (Emission.bytes (start.steps setup lines).emissions)[i]? := by
  have hrun := run_replay setup start lines
  obtain ⟨hwrite, horigin, hsymbols, hlisting⟩ := finish_eq_ok hrun.filled_start hfinish
  refine ⟨?_, ?_, ?_, ?_, fun i hi => hrun.getElem?_linked hwrite hi⟩
  · rw [horigin, effectiveOrigin, hrun.origin, Option.or_assoc]
    rfl
  · intro name
    rw [hsymbols, hrun.labels]
    exact Option.or_none
  · rw [hlisting, hrun.listing_start, List.forall₂_map_left_iff, List.forall₂_same]
    intro m hm
    exact ⟨rfl, hrun.encodes hm, hrun.links hfinish hmemory hm⟩
  · rw [Request.size_writeAll hwrite, hrun.size_start]

/-- What `sampleLines` amount to. -/
def sampleAssembly : Assembly where
  code := ⟨#[0xC3, 0x06, 0x40, 0x18, 0x01, 0x00]⟩
  origin := some 0x4000
  symbols := Dictionary.empty.insert "a".toList 6
  listing := [⟨1, 0, 3, "jp :a".toList⟩, ⟨3, 3, 2, "jr :a".toList⟩, ⟨5, 5, 1, "nop".toList⟩]

theorem sampleAssembly_linked :
    ((start.replay sampleSetup sampleLines).1.finish sampleSetup).2 = .ok sampleAssembly ∧
    sampleAssembly.code.size < 0x8000000000000000 ∧
    List.Forall₂
      (fun e m =>
        e = m.entry ∧ Encoding.ofStatement sampleSetup.table m.statement = .ok m.encoding ∧
        sampleAssembly.Links e m.encoding)
      sampleAssembly.listing (start.steps sampleSetup sampleLines).emissions := by
  have hfinish : ((start.replay sampleSetup sampleLines).1.finish sampleSetup).2 =
      .ok sampleAssembly := by
    decide +kernel
  have hmemory : sampleAssembly.code.size < 0x8000000000000000 := by decide
  obtain ⟨-, -, hlinked, -⟩ :=
    assembly_linked sampleSetup sampleLines sampleAssembly hfinish hmemory
  exact ⟨hfinish, hmemory, hlinked⟩

end Session

end Z80
