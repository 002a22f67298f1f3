import Z80.Proofs.Source

/-!
# What a run reports

The events of a run mirror its steps.  A statement is reported with the bytes that it emits, so with
zeros for a label that has no value yet.  A label is reported where it is declared, with a warning
before it if there is one of its name already.  The end reports each reference that it writes into
the code, once for all its sites.  So the listing, the symbols and the references of an assembly can
be read off its events.
-/

namespace Z80

/-! ## Lists that come apart -/

namespace Event

/-- The label that an event declares. -/
def symbol? : Event → Option Symbol
  | label _ name position => some ⟨name, position⟩
  | _ => none

/-- The labels that events declare, in order. -/
def symbols (events : List Event) : List Symbol := events.filterMap symbol?

end Event

/-- The event of an emission. -/
def Emission.event (m : Emission) : Event :=
  .statement m.line m.position m.encoding.bytes m.statement.text

/-! ## The events of steps -/

namespace Session

variable {s : Session} {step : Step}

end Session

/-! ## The events of runs -/

namespace History

/-- The events of steps, in order. -/
def events (history : History) : List Event := history.flatMap fun x => x.1.events x.2

end History

namespace Session.Run

variable {setup : Setup} {s after : Session} {history : History}

end Session.Run

namespace Session

variable {setup : Setup} {s after : Session} {lines : List Text}

end Session

/-! ## The events of the end -/

namespace Session

variable {setup : Setup} {s : Session} {asm : Assembly}

end Session

/-! ## Events and assemblies -/

/-- Whether an operand is a label. -/
def Statement.namesLabel (s : Statement) : Bool :=
  s.operands.any fun
    | .label _ => true
    | _ => false

theorem Statement.namesLabel_iff {s : Statement} :
    s.namesLabel = true ↔ ∃ name, .label name ∈ s.operands := by
  rw [namesLabel, List.any_eq_true]
  constructor
  · rintro ⟨operand, hmem, hlabel⟩
    cases operand with
    | label name => exact ⟨name, hmem⟩
    | _ => cases hlabel
  · rintro ⟨name, hmem⟩
    exact ⟨_, hmem, rfl⟩

namespace Encoding

variable {table : OpcodeTable} {s : Statement} {encoding : Encoding}

theorem isSome_reference (h : ofStatement table s = .ok encoding) :
    encoding.reference.isSome = s.namesLabel := by
  obtain ⟨hnames, -, -⟩ := ofStatement_eq_ok h
  rw [Bool.eq_iff_iff, Statement.namesLabel_iff]
  cases hreference : encoding.reference with
  | none =>
    rw [hreference] at hnames
    exact iff_of_false nofun fun ⟨name, hname⟩ => label_notMem_of_referenceOf hnames name hname
  | some reference =>
    rw [hreference] at hnames
    exact iff_of_true rfl ⟨_, mem_of_referenceOf hnames⟩

end Encoding

/-- The bytes that are reported for an emission are as many as those of its entry and the same, but
for the operand if that is a label: there they are zero. -/
def Assembly.Shows (asm : Assembly) (m : Emission) : Prop :=
  if m.statement.namesLabel then
    ∃ opcode operand, asm.bytesOf m.entry = opcode :: operand ∧
      m.encoding.bytes = opcode :: List.replicate operand.length 0
  else asm.bytesOf m.entry = m.encoding.bytes

namespace Session.Run

variable {setup : Setup} {s : Session} {history : History} {asm : Assembly}

theorem shows (h : Run setup start history s) (hfinish : (s.finish setup).2 = .ok asm)
    {m : Emission} (hm : m ∈ history.emissions) : asm.Shows m := by
  obtain ⟨hwrite, -, -, -⟩ := finish_eq_ok h.filled_start hfinish
  have hsize := Request.size_writeAll hwrite
  rw [Assembly.Shows, h.bytesOf_entry hsize hm, ← Encoding.isSome_reference (h.encodes hm)]
  cases hreference : m.encoding.reference with
  | none => exact h.linked_plain hwrite hm hreference
  | some reference =>
    have hrequest : m.request? = some ⟨reference, m.position⟩ :=
      Emission.request?_eq_some.mpr ⟨hreference, rfl⟩
    obtain ⟨opcode, operand, hopcode, hoperand, hlinked⟩ := h.linked_request hwrite hm hrequest
    obtain ⟨opcode', hbytes⟩ := Emission.bytes_of_request (h.encodes hm) hrequest
    rw [hbytes] at hopcode
    cases hopcode
    exact ⟨opcode, operand, hlinked, by rw [hbytes, Request.length_operand hoperand]⟩

end Session.Run

namespace Session

end Session

end Z80
