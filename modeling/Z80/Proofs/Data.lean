import Z80.Proofs.Line
import Z80.Proofs.LineByLine
import Z80.Proofs.Spacing

/-!
# Lines of data

A line of data stands for bytes: a text after `defm` for its UTF-8 bytes, and numbers after `defb`
for a byte each.  On the way to the code a line loses its comment, its blanks, its letter case and
its quotes, and is split at commas and colons; a text comes through as it is
(`message_appends_utf8`), and so do numbers as they are printed, in hexadecimal and in decimal
(`printed_bytes_assemble`).
-/

namespace Z80

open Text (Trimmed trim lower isBlank outside)

/-! ## Lines that add bytes -/

namespace Session

variable {setup : Setup} {s : Session} {raw : Text} {bytes : List UInt8}

/-- The line is accepted and adds the bytes to the code; labels, references to them, variables and
the origin stay as they are. -/
structure Appends (setup : Setup) (s : Session) (raw : Text) (bytes : List UInt8) : Prop where
  accepted : ∃ events, (s.push setup raw).2 = .ok events
  code : (s.push setup raw).1.code.toList = s.code.toList ++ bytes
  position : (s.push setup raw).1.position = s.position + bytes.length
  labels : (s.push setup raw).1.labels = s.labels
  references : (s.push setup raw).1.references = s.references
  bindings : (s.push setup raw).1.bindings = s.bindings
  origin : (s.push setup raw).1.origin = s.origin

theorem appends_of_interpret {statement : Statement} {form : Form}
    (h : s.interpret setup raw = .ok (.emit statement ⟨bytes, form, none⟩)) :
    s.Appends setup raw bytes := by
  have hpush := push_of_ok h
  refine ⟨⟨_, by rw [hpush]⟩, ?_, ?_, ?_, ?_, ?_, ?_⟩
  · rw [hpush]
    exact CodeBuffer.toList_emit s.code bytes
  · rw [hpush]
    exact CodeBuffer.size_emit s.code bytes
  all_goals
    rw [hpush]
    rfl

/-- A source of one line that refers to no label assembles to the bytes of that line. -/
theorem assemble_of_interpret {statement : Statement} {form : Form} (hfeed : '\n' ∉ raw)
    (hne : raw ≠ []) (h : start.interpret setup raw = .ok (.emit statement ⟨bytes, form, none⟩)) :
    ∃ asm, assemble setup raw = .ok asm ∧ asm.code.toList = bytes := by
  rw [assemble, trace, Text.lines_of_notMem hfeed hne, run_eq_advance, advance, h]
  exact ⟨_, rfl, CodeBuffer.toList_emit .empty bytes⟩

theorem assemble_of_refused {fault : Fault} (hfeed : '\n' ∉ raw) (hne : raw ≠ [])
    (h : start.interpret setup raw = .error fault) :
    assemble setup raw = .error (.line 1 fault) := by
  rw [assemble, trace, Text.lines_of_notMem hfeed hne, run_eq_advance, advance, h]
  rfl

end Session

/-! ## Texts -/

namespace Line

variable {keyword gap body : Text}

/-- What makes a line give the text as data: the keyword in some letter case, blanks, and the text,
which is not cut at its ends or by a comment, and in which no variable is put. -/
structure Message (keyword gap body : Text) : Prop where
  folded : lower keyword = "defm".toList
  blank : ∀ c ∈ gap, isBlank c = true
  gap_ne_nil : gap ≠ []
  trimmed : Trimmed body
  ne_nil : body ≠ []
  comment : ';' ∉ outside false body
  dollar : '$' ∉ body

namespace Message

theorem notMem_keyword (h : Message keyword gap body) {c : Char} (hc : c.toLower ∉ "defm".toList) :
    c ∉ keyword := fun hmem => hc (h.folded ▸ List.mem_map_of_mem hmem)

theorem no_blank (h : Message keyword gap body) : ∀ c ∈ keyword, isBlank c = false := by
  intro c hc
  rw [← Text.isBlank_toLower]
  exact no_blank_defm _ (h.folded ▸ List.mem_map_of_mem hc)

theorem keyword_ne_nil (h : Message keyword gap body) : keyword ≠ [] := by
  rintro rfl
  cases h.folded

theorem head?_blank (h : Message keyword gap body) :
    ∀ c ∈ (gap ++ body).head?, isBlank c = true := by
  intro c hc
  obtain ⟨d, rest, rfl⟩ := List.exists_cons_of_ne_nil h.gap_ne_nil
  cases hc
  exact h.blank c List.mem_cons_self

/-- The keyword may be in lower case. -/
theorem fold (h : Message keyword gap body) : Message "defm".toList gap body :=
  { h with folded := by decide }

theorem trimmed_line (h : Message keyword gap body) : Trimmed (keyword ++ (gap ++ body)) :=
  (Text.trimmed_of_no_blank h.no_blank).append h.trimmed h.keyword_ne_nil h.ne_nil gap

theorem comment_line (h : Message keyword gap body) :
    ';' ∉ outside false (keyword ++ (gap ++ body)) := by
  rw [Text.outside_append, Text.quotedAfter_of_notMem _ (h.notMem_keyword (by decide)),
    Text.outside_append, Text.quotedAfter_of_notMem _ (Text.quote_notMem_of_blank h.blank),
    List.mem_append, List.mem_append]
  rintro (hmem | hmem | hmem)
  · exact h.notMem_keyword (by decide) (Text.outside_subset _ _ hmem)
  · exact Text.notMem_of_blank h.blank rfl (Text.outside_subset _ _ hmem)
  · exact h.comment hmem

theorem dollar_line (h : Message keyword gap body) : '$' ∉ keyword ++ (gap ++ body) := by
  rw [List.mem_append, List.mem_append]
  rintro (hmem | hmem | hmem)
  · exact h.notMem_keyword (by decide) hmem
  · exact Text.notMem_of_blank h.blank rfl hmem
  · exact h.dollar hmem

/-- Only the keyword is folded. -/
theorem read (h : Message keyword gap body) (vars : Variables) :
    Line.read vars (keyword ++ (gap ++ body)) =
      .ok (.statement ("defm".toList ++ (gap ++ body))) := by
  have hne : keyword ++ (gap ++ body) ≠ [] := List.append_ne_nil_of_left_ne_nil h.keyword_ne_nil _
  have horg : Text.afterKeyword? "org".toList ("defm".toList ++ (gap ++ body)) = none := by
    rw [Text.afterKeyword?_append no_blank_org no_blank_defm h.head?_blank, if_neg (by decide)]
  rw [read_eq_foldCase_self vars h.trimmed_line hne h.comment_line h.dollar_line, foldCase,
    Text.afterKeyword?_append no_blank_defm h.no_blank h.head?_blank, if_pos h.folded]
  exact ofFolded_eq_ok.mpr (.statement (fun hcolon => absurd hcolon (by simp)) horg)

/-- The text is not split at commas. -/
theorem read_statement (h : Message keyword gap body) (v : Vocabulary) :
    Statement.read v ("defm".toList ++ (gap ++ body)) = .ok ⟨"defm".toList, [.text body]⟩ := by
  have hrest : trim (gap ++ body) = body := by
    have hblank := Text.trim_append_of_blank h.blank (List.forall_mem_nil _) body
    rwa [List.append_nil, Text.trim_eq_self h.trimmed] at hblank
  rw [Statement.read_eq_ok, Text.trim_eq_self h.fold.trimmed_line,
    Text.splitHead_append no_blank_defm h.head?_blank, hrest]
  exact ⟨rfl, .message rfl h.ne_nil⟩

theorem interpret (h : Message keyword gap body) {t : Text}
    (ht : (Text.unquote? body).getD body = t) (hne : t ≠ []) (setup : Setup) (s : Session) :
    s.interpret setup (keyword ++ (gap ++ body)) =
      .ok (.emit ⟨"defm".toList, [.text body]⟩ ⟨t.utf8, .data, none⟩) := by
  have hmessage : Encoding.messageOf ⟨"defm".toList, [.text body]⟩ = t := ht
  rw [Session.interpret_statement (h.read s.bindings) (h.read_statement _),
    Encoding.ofStatement_eq_placeholder (by simp) (by simp), Encoding.placeholder,
    if_neg (by simp), if_pos rfl, Encoding.dataText, hmessage, if_neg (by simpa using hne)]
  rfl

end Message

end Line

/-- Let a line have the keyword `defm` in any letter case, then blanks, then a text without
variables and quotes, in quotes or, if it has no blanks at its ends and no semicolon, without them.
In any session, the line adds the UTF-8 bytes of the text to the code and changes nothing else. -/
theorem Session.message_appends_utf8 (setup : Setup) (s : Session) {keyword gap t : Text}
    (hkeyword : lower keyword = "defm".toList) (hgap : ∀ c ∈ gap, isBlank c = true)
    (hgapNe : gap ≠ []) (hne : t ≠ []) (hquote : '"' ∉ t) (hdollar : '$' ∉ t) :
    s.Appends setup (keyword ++ (gap ++ '"' :: (t ++ ['"']))) t.utf8 ∧
    (Trimmed t → ';' ∉ t → s.Appends setup (keyword ++ (gap ++ t)) t.utf8) := by
  constructor
  · have hquoted : Line.Message keyword gap ('"' :: (t ++ ['"'])) := by
      refine ⟨hkeyword, hgap, hgapNe, ?_, List.cons_ne_nil _ _, ?_, by simpa using hdollar⟩
      · exact Text.trimmed_enclosed rfl rfl t
      · rw [Text.outside_quoted hquote]
        exact List.not_mem_nil
    exact appends_of_interpret (hquoted.interpret (by rw [Text.unquote?_quoted]; rfl) hne setup s)
  · intro htrimmed hsemicolon
    have hplain : Line.Message keyword gap t := by
      refine ⟨hkeyword, hgap, hgapNe, htrimmed, hne, ?_, hdollar⟩
      rwa [Text.outside_of_notMem hquote]
    exact appends_of_interpret
      (hplain.interpret (by rw [Text.unquote?_of_notMem hquote]; rfl) hne setup s)

/-- The blanks inside the quotes are kept, and those outside are not. -/
theorem Session.quotedMessage_appended :
    (start.replay sampleSetup sampleLines).1.Appends sampleSetup "DefM\t \" Aé;b,:c \"".toList
      [0x20, 0x41, 0xC3, 0xA9, 0x3B, 0x62, 0x2C, 0x3A, 0x63, 0x20] ∧
    (start.replay sampleSetup sampleLines).1.Appends sampleSetup "DefM\t A,:c".toList
      [0x41, 0x2C, 0x3A, 0x63] := by
  have hkeyword : lower "DefM".toList = "defm".toList := by decide
  have hgap : ∀ c ∈ "\t ".toList, isBlank c = true := List.all_eq_true.mp (by decide)
  have htrimmed : Trimmed "A,:c".toList :=
    Text.trimmed_of_no_blank (Text.no_blank_of_all (by decide))
  have hquoted :=
    (message_appends_utf8 sampleSetup (start.replay sampleSetup sampleLines).1 hkeyword hgap
      (by decide) (t := " Aé;b,:c ".toList) (by decide) (by decide) (by decide)).1
  have hplain :=
    (message_appends_utf8 sampleSetup (start.replay sampleSetup sampleLines).1 hkeyword hgap
      (by decide) (t := "A,:c".toList) (by decide) (by decide) (by decide)).2 htrimmed (by decide)
  exact ⟨hquoted, hplain⟩

/-! ## Numbers as they are printed -/

namespace Numeral

/-- The characters of numbers in decimal. -/
def decimalChars : Text := "-0123456789".toList

/-- The characters of numbers in decimal, and in hexadecimal with the mark of the base in front. -/
def printedChars : Text := decimalChars ++ "abcdefx".toList

/-- A text of the characters of numbers that starts as numbers do. -/
structure Printed (t : Text) : Prop where
  ne_nil : t ≠ []
  head : ∀ c ∈ t.head?, c ∈ decimalChars
  subset : t ⊆ printedChars

theorem printed_signedDecimal (n : Int) : Printed (signedDecimal n) := by
  have hdecimal : decimal n.natAbs ⊆ decimalChars := by
    intro c hc
    obtain ⟨d, hd, rfl⟩ := exists_of_mem_toDigits (by decide) hc
    have hdigits : ∀ d < 10, d.digitChar ∈ decimalChars := by decide
    exact hdigits d hd
  have hsubset : signedDecimal n ⊆ decimalChars := by
    rw [signedDecimal]
    split
    · exact List.cons_subset.mpr ⟨by decide, hdecimal⟩
    · exact hdecimal
  have hne : signedDecimal n ≠ [] := by
    rw [signedDecimal]
    split
    · exact List.cons_ne_nil _ _
    · exact Nat.toDigits_ne_nil
  exact ⟨hne, fun c hc => hsubset (List.mem_of_mem_head? hc),
    fun c hc => List.mem_append_left _ (hsubset hc)⟩

theorem printed_hex (width n : Nat) : Printed ('0' :: 'x' :: hex width n) := by
  refine ⟨List.cons_ne_nil _ _, fun c hc => ?_, ?_⟩
  · cases hc
    decide
  · have hdigits : ∀ d < 16, d.digitChar ∈ printedChars := by decide
    have hhex : hex width n ⊆ printedChars := by
      intro c hc
      rw [hex, List.leftpad, List.mem_append, List.mem_replicate] at hc
      rcases hc with ⟨-, rfl⟩ | hc
      · decide
      · obtain ⟨d, hd, rfl⟩ := exists_of_mem_toDigits (by decide) hc
        exact hdigits d hd
    exact List.cons_subset.mpr ⟨by decide, List.cons_subset.mpr ⟨by decide, hhex⟩⟩

namespace Printed

variable {t : Text}

theorem notMem (h : Printed t) {c : Char} (hc : c ∉ printedChars) : c ∉ t :=
  fun hmem => hc (h.subset hmem)

theorem no_blank (h : Printed t) : ∀ c ∈ t, isBlank c = false := fun c hc =>
  Text.no_blank_of_all (t := printedChars) (by decide) c (h.subset hc)

/-- No register and no condition starts as numbers do. -/
theorem read_operand (h : Printed t) :
    Operand.read InstructionSet.vocabulary t = .ok (.immediate t) := by
  have hwords :
      ∀ word ∈ InstructionSet.vocabulary.registers ++ InstructionSet.vocabulary.conditions,
      word.head?.any decimalChars.contains = false := by
    decide
  have hother :
      t ∉ InstructionSet.vocabulary.registers ++ InstructionSet.vocabulary.conditions := by
    intro hmem
    obtain ⟨c, rest, rfl⟩ := List.exists_cons_of_ne_nil h.ne_nil
    have hcontains : decimalChars.contains c = true := List.contains_iff_mem.mpr (h.head c rfl)
    exact Bool.false_ne_true ((hwords _ hmem).symm.trans hcontains)
  rw [List.mem_append, not_or] at hother
  have hword : Operand.ofWord InstructionSet.vocabulary t = .immediate t := by
    rw [Operand.ofWord, Vocabulary.isRegister, if_neg (by simpa using hother.1),
      Vocabulary.isCondition, if_neg (by simpa using hother.2)]
  have hparentheses : Operand.parenthesized? t = none := by
    rw [Option.eq_none_iff_forall_ne_some]
    intro inner hinner
    rw [Operand.parenthesized?_eq_some] at hinner
    exact h.notMem (c := '(') (by decide) (hinner ▸ List.mem_cons_self)
  have hquote : t.head? ≠ some '"' :=
    fun hhead => h.notMem (by decide) (List.mem_of_mem_head? hhead)
  rw [Operand.read, Text.trim_eq_self (Text.trimmed_of_no_blank h.no_blank), ← hword]
  exact Operand.ofTrimmed_eq_ok.mpr (.word t hquote (h.notMem (by decide)) hparentheses)

end Printed

/-- Pieces that can be listed on a line, and the numbers that they stand for. -/
structure PrintedAs (pieces : List Text) (values : List Int) : Prop where
  ne_nil : pieces ≠ []
  printed : ∀ t ∈ pieces, Printed t
  read : List.Forall₂ (fun t v => Literal.read t = .ok v) pieces values

theorem printedAs_decimal {values : List Int} (hne : values ≠ [])
    (h : ∀ v ∈ values, -2 ^ 63 ≤ v ∧ v ≤ 2 ^ 63 - 1) :
    PrintedAs (values.map signedDecimal) values where
  ne_nil := by simpa using hne
  printed t ht := by
    obtain ⟨v, -, rfl⟩ := List.mem_map.mp ht
    exact printed_signedDecimal v
  read := by
    refine List.forall₂_map_left_iff.mpr (List.forall₂_same.mpr fun v hv => ?_)
    exact Literal.read_signedDecimal (h v hv).1 (h v hv).2

/-- The digits of a byte, with the mark of the base in front. -/
def markedHex (b : UInt8) : Text := '0' :: 'x' :: hex 2 b.toNat

theorem printedAs_hex {bytes : List UInt8} (hne : bytes ≠ []) :
    PrintedAs (bytes.map markedHex) (bytes.map fun b => (b.toNat : Int)) where
  ne_nil := by simpa using hne
  printed t ht := by
    obtain ⟨b, -, rfl⟩ := List.mem_map.mp ht
    exact printed_hex 2 b.toNat
  read := by
    rw [List.forall₂_map_left_iff, List.forall₂_map_right_iff, List.forall₂_same]
    intro b _
    have hdigits : Positional 16 (hex 2 b.toNat) b.toNat :=
      positional_zeros (by decide) (by decide) _ _
    have hlt := b.toNat_lt
    exact Literal.read_front hdigits (by omega) (.inl rfl)

end Numeral

/-! ## Lines of numbers -/

namespace Statement

open Numeral (Printed printedChars)

/-- The line that lists the pieces as bytes. -/
def dataLine (pieces : List Text) : Text := plainLine "defb".toList pieces

/-- The characters of such a line, if its pieces are numbers. -/
def lineChars : Text := " ,".toList ++ printedChars

variable {pieces : List Text}

theorem dataLine_subset (h : ∀ t ∈ pieces, Printed t) : dataLine pieces ⊆ lineChars := by
  have hlist : [','].intercalate pieces ⊆ lineChars :=
    Text.intercalate_subset_of_forall (by decide) fun t ht c hc =>
      List.mem_append_right _ ((h t ht).subset hc)
  exact List.append_subset_of_subset_of_subset (by decide) (List.cons_subset.mpr ⟨by decide, hlist⟩)

theorem notMem_dataLine (h : ∀ t ∈ pieces, Printed t) {c : Char} (hc : c ∉ lineChars) :
    c ∉ dataLine pieces := fun hmem => hc (dataLine_subset h hmem)

theorem dataLine_ne_nil (pieces : List Text) : dataLine pieces ≠ [] :=
  List.append_ne_nil_of_left_ne_nil (by decide) _

theorem trimmed_dataLine (hne : pieces ≠ []) (h : ∀ t ∈ pieces, Printed t) :
    Trimmed (dataLine pieces) := by
  obtain ⟨htrimmed, hlist⟩ := Text.trimmed_intercalate [','] fun t ht =>
    ⟨Text.trimmed_of_no_blank (h t ht).no_blank, (h t ht).ne_nil⟩
  have hword : Trimmed "defb".toList := Text.trimmed_of_no_blank (Text.no_blank_of_all (by decide))
  exact hword.append htrimmed (by decide) (hlist hne) [' ']

end Statement

namespace Line

open Numeral (Printed)
open Statement (dataLine lineChars dataLine_subset notMem_dataLine dataLine_ne_nil trimmed_dataLine)

variable {pieces : List Text}

/-- Nothing of the line is taken for a comment, a variable, a label or another keyword. -/
theorem read_dataLine (hne : pieces ≠ []) (h : ∀ t ∈ pieces, Printed t) (vars : Variables) :
    Line.read vars (dataLine pieces) = .ok (.statement (dataLine pieces)) := by
  have hword : ∀ c ∈ "defb".toList, isBlank c = false := Text.no_blank_of_all (by decide)
  have hother : ∀ keyword : Text, (∀ c ∈ keyword, isBlank c = false) →
      lower "defb".toList ≠ keyword →
      Text.afterKeyword? keyword (dataLine pieces) = none := by
    intro keyword hkeyword hdefb
    rw [dataLine, Statement.plainLine,
      Text.afterKeyword?_append hkeyword hword (Text.isBlank_head?_space _), if_neg hdefb]
  have hquote : '"' ∉ dataLine pieces := notMem_dataLine h (by decide)
  have hfolded : foldCase (dataLine pieces) = .ok (dataLine pieces) := by
    have hlower : ∀ c ∈ lineChars, (c.toLower == c) = true := List.all_eq_true.mp (by decide)
    rw [foldCase_eq_self (hother _ no_blank_defm (by decide))]
    refine ⟨.inl (List.count_eq_zero_of_not_mem hquote), fun c hc => ?_⟩
    exact beq_iff_eq.mp (hlower c (dataLine_subset h (Text.outside_subset _ _ hc)))
  have hcomment : ';' ∉ outside false (dataLine pieces) := fun hmem =>
    notMem_dataLine h (by decide) (Text.outside_subset _ _ hmem)
  rw [read_eq_foldCase_self vars (trimmed_dataLine hne h) (dataLine_ne_nil pieces) hcomment
    (notMem_dataLine h (by decide)), hfolded]
  have hcolon : (dataLine pieces).head? ≠ some ':' := fun hhead =>
    notMem_dataLine h (by decide) (List.mem_of_mem_head? hhead)
  exact ofFolded_eq_ok.mpr (.statement hcolon (hother _ no_blank_org (by decide)))

end Line

namespace Statement

open Numeral (Printed)

variable {pieces : List Text}

theorem read_dataLine (hne : pieces ≠ []) (h : ∀ t ∈ pieces, Printed t) :
    read InstructionSet.vocabulary (dataLine pieces) =
      .ok ⟨"defb".toList, pieces.map .immediate⟩ := by
  have hlistable : ∀ t ∈ pieces, Listable t := by
    intro t ht
    have hquote : '"' ∉ t := (h t ht).notMem (by decide)
    refine ⟨⟨?_, Text.quotedAfter_of_notMem _ hquote⟩, ?_⟩
    · exact fun hmem => (h t ht).notMem (by decide) (Text.outside_subset _ _ hmem)
    · rw [Text.trim_eq_self (Text.trimmed_of_no_blank (h t ht).no_blank)]
      exact (h t ht).ne_nil
  have hitems : Itemized "defb".toList pieces :=
    ⟨by decide, Text.no_blank_of_all (by decide), by decide, hne, hlistable⟩
  have hoperands : pieces.mapM (Operand.read InstructionSet.vocabulary) =
      .ok (pieces.map .immediate) := by
    refine mapM_eq_ok.mpr (List.forall₂_map_right_iff.mpr (List.forall₂_same.mpr fun t ht => ?_))
    exact (h t ht).read_operand
  rw [dataLine, read_of_laidOut hitems (laidOut_plainLine _ _), hoperands]
  rfl

end Statement

/-! ## Bytes of numbers -/

namespace Encoding

theorem mapM_dataByte {pieces : List Text} {values : List Int}
    (h : List.Forall₂ (fun t v => Literal.read t = .ok v) pieces values) :
    (pieces.map Operand.immediate).mapM dataByte = values.mapM Width.byte.encode := by
  induction h with
  | nil => rfl
  | @cons t v _ _ hread _ ih =>
    have hbyte : dataByte (.immediate t) = Width.byte.encode v := by
      rw [dataByte, hread]
      rfl
    rw [List.map_cons, List.mapM_cons, List.mapM_cons, hbyte, ih]

end Encoding

namespace Width

theorem mapM_encode_of_fits {values : List Int} (h : ∀ v ∈ values, byte.Fits v) :
    values.mapM byte.encode = .ok (values.map fun v => [UInt8.ofInt v]) :=
  mapM_eq_ok.mpr (List.forall₂_map_right_iff.mpr
    (List.forall₂_same.mpr fun v hv => if_pos (h v hv)))

/-- The first number that does not fit is at fault. -/
theorem mapM_encode_of_first {before : List Int} (hbefore : ∀ v ∈ before, byte.Fits v) {v : Int}
    (hv : ¬ byte.Fits v) (after : List Int) :
    (before ++ v :: after).mapM byte.encode = .error (.valueOutOfRange v 8) := by
  induction before with
  | nil =>
    rw [List.nil_append, List.mapM_cons, encode, if_neg hv]
    rfl
  | cons w before ih =>
    obtain ⟨hw, hbefore⟩ := List.forall_mem_cons.mp hbefore
    rw [List.cons_append, List.mapM_cons, encode, if_pos hw, ih hbefore]
    rfl

end Width

namespace Session

open Numeral (PrintedAs)
open Statement (dataLine)

variable {setup : Setup} {pieces : List Text} {values : List Int}

/-- A line of numbers stands for their bytes, or for the first fault among them. -/
theorem interpret_numbers (hvocabulary : setup.table.vocabulary = InstructionSet.vocabulary)
    (h : PrintedAs pieces values) (s : Session) :
    s.interpret setup (dataLine pieces) =
      (values.mapM Width.byte.encode).map fun parts =>
        .emit ⟨"defb".toList, pieces.map .immediate⟩ ⟨parts.flatten, .data, none⟩ := by
  have hstatement := Statement.read_dataLine h.ne_nil h.printed
  rw [← hvocabulary] at hstatement
  have hempty : ¬ (pieces.map Operand.immediate).isEmpty = true := by simpa using h.ne_nil
  rw [interpret_statement (Line.read_dataLine h.ne_nil h.printed s.bindings) hstatement,
    Encoding.ofStatement_eq_placeholder (by simp) (by simp), Encoding.placeholder, if_pos rfl,
    Encoding.dataBytes, if_neg hempty, Encoding.mapM_dataByte h.read]
  cases values.mapM Width.byte.encode <;> rfl

theorem interpret_of_fits (hvocabulary : setup.table.vocabulary = InstructionSet.vocabulary)
    (h : PrintedAs pieces values) (hfits : ∀ v ∈ values, Width.byte.Fits v) (s : Session) :
    s.interpret setup (dataLine pieces) =
      .ok (.emit ⟨"defb".toList, pieces.map .immediate⟩ ⟨values.map UInt8.ofInt, .data, none⟩) := by
  have hflatten : (values.map fun v => [UInt8.ofInt v]).flatten = values.map UInt8.ofInt := by
    rw [← List.flatMap_def]
    exact List.flatMap_pure_eq_map UInt8.ofInt values
  rw [interpret_numbers hvocabulary h, Width.mapM_encode_of_fits hfits, ← hflatten]
  rfl

/-- A source that is one line of numbers assembles to their bytes. -/
theorem assemble_of_fits (hvocabulary : setup.table.vocabulary = InstructionSet.vocabulary)
    (h : PrintedAs pieces values) (hfits : ∀ v ∈ values, Width.byte.Fits v) :
    ∃ asm, assemble setup (dataLine pieces) = .ok asm ∧ asm.code.toList = values.map UInt8.ofInt :=
  assemble_of_interpret (Statement.notMem_dataLine h.printed (by decide))
    (Statement.dataLine_ne_nil pieces)
    (interpret_of_fits hvocabulary h hfits .start)

end Session

/-! ## Dumps and lists -/

namespace Numeral

/-- A space of a dump as a comma and the mark of the base, and any other character as it is. -/
def respace (c : Char) : Text := if c = ' ' then ",0x".toList else [c]

/-- The line that lists the bytes of a dump, with the mark of the base in front of each. -/
def dumpLine (dump : Text) : Text := "defb 0x".toList ++ dump.flatMap respace

/-- The line that lists the numbers in decimal. -/
def decimalLine (values : List Int) : Text :=
  "defb ".toList ++ [','].intercalate (values.map signedDecimal)

theorem decimalLine_eq (values : List Int) :
    decimalLine values = Statement.dataLine (values.map signedDecimal) := rfl

@[simp]
theorem flatMap_respace_hex (width n : Nat) : (hex width n).flatMap respace = hex width n := by
  have hkept : ∀ c ∈ hex width n, respace c = [c] := fun c hc =>
    if_neg fun hspace : c = ' ' => space_notMem_hex width n (hspace ▸ hc)
  rw [List.flatMap_congr hkept, List.flatMap_singleton']

/-- What is put for the spaces of a dump makes the commas and the marks of the base. -/
theorem dumpLine_eq {bytes : List UInt8} (hne : bytes ≠ []) :
    dumpLine (hexDump bytes) = Statement.dataLine (bytes.map markedHex) := by
  have hlist : "0x".toList ++ (hexDump bytes).flatMap respace =
      [','].intercalate (bytes.map markedHex) := by
    induction bytes with
    | nil => exact absurd rfl hne
    | cons b rest ih =>
      by_cases hrest : rest = []
      · subst hrest
        rw [hexDump_singleton, flatMap_respace_hex, List.map_singleton, List.intercalate_singleton]
        rfl
      · rw [hexDump_cons b hrest, List.flatMap_append, flatMap_respace_hex, List.flatMap_cons,
          List.map_cons, List.intercalate_cons_of_ne_nil (by simpa using hrest), ← ih hrest]
        simp [markedHex, respace]
  exact congrArg ("defb ".toList ++ ·) hlist

variable {setup : Setup}

/-- The bytes of a dump come back from the line that lists them. -/
theorem assemble_dumpLine (hvocabulary : setup.table.vocabulary = InstructionSet.vocabulary)
    {bytes : List UInt8} (hne : bytes ≠ []) :
    ∃ asm, assemble setup (dumpLine (hexDump bytes)) = .ok asm ∧ asm.code.toList = bytes := by
  have hfits : ∀ v ∈ bytes.map fun b => (b.toNat : Int), Width.byte.Fits v := by
    intro v hv
    obtain ⟨b, -, rfl⟩ := List.mem_map.mp hv
    have hlt := b.toNat_lt
    change -0x80 ≤ (b.toNat : Int) ∧ (b.toNat : Int) ≤ 0xFF
    omega
  have hbytes : (bytes.map fun b => (b.toNat : Int)).map UInt8.ofInt = bytes := by
    rw [List.map_map]
    exact (List.map_congr_left fun b _ => byte_ofInt_toNat b).trans (List.map_id bytes)
  have hassemble := Session.assemble_of_fits hvocabulary (printedAs_hex hne) hfits
  rwa [hbytes, ← dumpLine_eq hne] at hassemble

/-- Dumps tell bytes apart, as the bytes come back from them. -/
theorem hexDump_injective : Function.Injective hexDump := by
  intro bytes bytes' h
  have hlength : bytes.length = bytes'.length := by
    have hdigits := length_digits_hexDump bytes
    rw [h, length_digits_hexDump] at hdigits
    omega
  by_cases hne : bytes = []
  · subst hne
    exact (List.eq_nil_of_length_eq_zero hlength.symm).symm
  · have hne' : bytes' ≠ [] :=
      fun hnil => hne (List.eq_nil_of_length_eq_zero (by rw [hlength, hnil]; rfl))
    -- any setup will do; its table must not be unfolded
    obtain ⟨setup, hvocabulary⟩ :
        ∃ setup : Setup, setup.table.vocabulary = InstructionSet.vocabulary :=
      ⟨⟨InstructionSet.table, {}⟩, rfl⟩
    obtain ⟨asm, hasm, hcode⟩ := assemble_dumpLine hvocabulary hne
    obtain ⟨asm', hasm', hcode'⟩ := assemble_dumpLine hvocabulary hne'
    rw [h, hasm'] at hasm
    rw [← hcode, ← Except.ok.inj hasm, hcode']

/-- Dumps tell bytes apart, and the line that lists the bytes of a dump assembles to them.  A line
that lists numbers of 64 bits in decimal adds each of them modulo 256 if all fit in a byte, with a
sign or without; otherwise the first that does not is at fault, and nothing is added. -/
theorem printed_bytes_assemble (setup : Setup)
    (hvocabulary : setup.table.vocabulary = InstructionSet.vocabulary) :
    Function.Injective hexDump ∧
    (∀ bytes, bytes ≠ [] →
      ∃ asm, assemble setup (dumpLine (hexDump bytes)) = .ok asm ∧ asm.code.toList = bytes) ∧
    ∀ values : List Int, values ≠ [] → (∀ v ∈ values, -2 ^ 63 ≤ v ∧ v ≤ 2 ^ 63 - 1) →
      ((∀ v ∈ values, -128 ≤ v ∧ v ≤ 255) →
        ∃ bytes : List UInt8, bytes.map (fun b => (b.toNat : Int)) = values.map (· % 256) ∧
          (∃ asm, assemble setup (decimalLine values) = .ok asm ∧ asm.code.toList = bytes) ∧
          ∀ s : Session, s.Appends setup (decimalLine values) bytes) ∧
      ∀ before v after, values = before ++ v :: after → (∀ w ∈ before, -128 ≤ w ∧ w ≤ 255) →
        ¬ (-128 ≤ v ∧ v ≤ 255) →
        assemble setup (decimalLine values) = .error (.line 1 (.valueOutOfRange v 8)) ∧
        ∀ s : Session, s.push setup (decimalLine values) =
          ({ s with lines := s.lines + 1 },
            .error (.line (s.lines + 1) (.valueOutOfRange v 8))) := by
  refine ⟨hexDump_injective, fun bytes hne =>
    assemble_dumpLine hvocabulary hne, fun values hne hrange => ?_⟩
  have hprinted := printedAs_decimal hne hrange
  constructor
  · intro hfits
    refine ⟨values.map UInt8.ofInt, ?_, Session.assemble_of_fits hvocabulary hprinted hfits,
      fun s => ?_⟩
    · rw [List.map_map]
      exact List.map_congr_left fun v _ => toNat_byte_ofInt v
    · exact Session.appends_of_interpret (Session.interpret_of_fits hvocabulary hprinted hfits s)
  · rintro before v after rfl hbefore hv
    have hinterpret : ∀ s : Session, s.interpret setup (decimalLine (before ++ v :: after)) =
        .error (.valueOutOfRange v 8) := by
      intro s
      rw [decimalLine_eq, Session.interpret_numbers hvocabulary hprinted,
        Width.mapM_encode_of_first hbefore hv after]
      rfl
    refine ⟨?_, fun s => Session.push_of_error (hinterpret s)⟩
    exact Session.assemble_of_refused (Statement.notMem_dataLine hprinted.printed (by decide))
      (Statement.dataLine_ne_nil _) (hinterpret .start)

/-- The bounds of what fits in a byte, and the numbers next to them. -/
theorem bounds_assemble :
    (∃ asm, assemble Session.sampleSetup "defb 0x00,0xff,0x7f".toList = .ok asm ∧
      asm.code.toList = [0x00, 0xFF, 0x7F]) ∧
    (∃ asm, assemble Session.sampleSetup "defb -128,255,-1,0".toList = .ok asm ∧
      asm.code.toList.map (fun b => (b.toNat : Int)) = [128, 255, 255, 0]) ∧
    assemble Session.sampleSetup "defb 255,-129,256".toList =
      .error (.line 1 (.valueOutOfRange (-129) 8)) := by
  have hhex : dumpLine (hexDump [0x00, 0xFF, 0x7F]) = "defb 0x00,0xff,0x7f".toList := by
    decide +kernel
  have hfitting : decimalLine [-128, 255, -1, 0] = "defb -128,255,-1,0".toList := by decide +kernel
  have hother : decimalLine [255, -129, 256] = "defb 255,-129,256".toList := by decide +kernel
  obtain ⟨-, hdump, hdecimal⟩ := printed_bytes_assemble Session.sampleSetup rfl
  rw [← hhex, ← hfitting, ← hother]
  refine ⟨hdump _ (by decide), ?_, ?_⟩
  · obtain ⟨bytes, hbytes, ⟨asm, hasm, hcode⟩, -⟩ :=
      (hdecimal [-128, 255, -1, 0] (by decide) (by decide)).1 (by decide)
    exact ⟨asm, hasm, by rw [hcode, hbytes]; rfl⟩
  · exact ((hdecimal [255, -129, 256] (by decide) (by decide)).2 [255] (-129) [256] rfl (by decide)
      (by decide)).1

end Numeral

end Z80
