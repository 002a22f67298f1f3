import Z80.Proofs.Line
import Z80.Proofs.LineByLine

/-!
# Letter case

Outside quotes the case of letters does not count.  The texts that differ by it are those that are
one text in lower case outside their quotes (`sameLetters_iff`), and this view of a text commutes
with what is done to a line before its letters are folded: a comment goes, and blanks at the ends.
So two such lines say the same, if they hold no variable, and sources made of them run alike.  A
`defm` line keeps the case of its message, with quotes or without, so there only the case of the
keyword is free.
-/

namespace Z80

open Text (trim isBlank quotedAfter lowerOutside)
open Session (sampleSetup)

/-! ## Texts that differ by letter case -/

namespace Text

/-- The same characters up to the case of letters, and up to nothing where the number of quotes in
front is odd. -/
structure SameLetters (t u : Text) : Prop where
  length : u.length = t.length
  letter : ∀ (i : Nat) (c d : Char), t[i]? = some c → u[i]? = some d → d.toLower = c.toLower
  quoted : ∀ (i : Nat) (c d : Char), t[i]? = some c → u[i]? = some d →
    (t.take i).count '"' % 2 = 1 → d = c

theorem folded_eq_iff {quoted : Bool} {c d : Char} :
    (if quoted then d else d.toLower) = (if quoted then c else c.toLower) ↔
      d.toLower = c.toLower ∧ (quoted = true → d = c) := by
  cases quoted with
  | true => exact ⟨fun h => ⟨congrArg Char.toLower h, fun _ => h⟩, fun h => h.2 rfl⟩
  | false => exact ⟨fun h => ⟨h, fun hquoted => absurd hquoted Bool.false_ne_true⟩, fun h => h.1⟩

theorem lowerOutside_eq_iff {quoted : Bool} {t u : Text} :
    lowerOutside quoted u = lowerOutside quoted t ↔
      u.length = t.length ∧ ∀ i c d, t[i]? = some c → u[i]? = some d →
        d.toLower = c.toLower ∧ (quotedAfter quoted (t.take i) = true → d = c) := by
  induction t generalizing quoted u with
  | nil =>
    cases u with
    | nil => simp
    | cons d u => simp [lowerOutside]
  | cons c t ih =>
    cases u with
    | nil => simp [lowerOutside]
    | cons d u =>
      rw [lowerOutside, lowerOutside, List.cons.injEq]
      constructor
      · rintro ⟨hhead, htail⟩
        -- the same quotes are open behind the two characters
        rw [← @folded_eq_quote quoted d, hhead, folded_eq_quote] at htail
        obtain ⟨hlength, hrest⟩ := ih.mp htail
        refine ⟨congrArg (· + 1) hlength, fun i c' d' hc hd => ?_⟩
        cases i with
        | zero =>
          cases hc
          cases hd
          exact folded_eq_iff.mp hhead
        | succ i => exact hrest i c' d' hc hd
      · rintro ⟨hlength, hall⟩
        have hhead : (if quoted then d else d.toLower) = if quoted then c else c.toLower :=
          folded_eq_iff.mpr (hall 0 c d rfl rfl)
        refine ⟨hhead, ?_⟩
        rw [← @folded_eq_quote quoted d, hhead, folded_eq_quote]
        exact ih.mpr ⟨Nat.succ.inj hlength, fun i => hall (i + 1)⟩

/-- Texts have the same letters if they are the same in lower case outside their quotes. -/
theorem sameLetters_iff {t u : Text} :
    SameLetters t u ↔ lowerOutside false u = lowerOutside false t := by
  have hodd : ∀ v : Text, quotedAfter false v = true ↔ v.count '"' % 2 = 1 := by
    intro v
    rw [quotedAfter_eq_count, Bool.false_bne, beq_iff_eq]
  simp only [lowerOutside_eq_iff, hodd]
  constructor
  · intro h
    exact ⟨h.length, fun i c d hc hd => ⟨h.letter i c d hc hd, h.quoted i c d hc hd⟩⟩
  · rintro ⟨hlength, hall⟩
    exact ⟨hlength, fun i c d hc hd => (hall i c d hc hd).1,
      fun i c d hc hd => (hall i c d hc hd).2⟩

/-! ## Cutting and trimming -/

theorem splitOutsideFrom_lowerOutside {separator : Char}
    (hseparator : ∀ c : Char, c.toLower = separator ↔ c = separator) (quoted : Bool) (t : Text) :
    (splitOutsideFrom separator quoted (lowerOutside quoted t)).1 =
      lowerOutside quoted (splitOutsideFrom separator quoted t).1 := by
  induction t generalizing quoted with
  | nil => rfl
  | cons c rest ih =>
    have hcut : ((if quoted then c else c.toLower) = separator ∧ quoted = false) ↔
        (c = separator ∧ quoted = false) := by
      refine and_congr_left ?_
      rintro rfl
      exact hseparator c
    rw [lowerOutside, splitOutsideFrom, splitOutsideFrom, folded_eq_quote]
    simp only [hcut]
    split
    · rfl
    · exact congrArg (_ :: ·) (ih _)

theorem lowerOutside_of_blank {quoted : Bool} {t : Text} (h : ∀ c ∈ t, isBlank c = true) :
    lowerOutside quoted t = t :=
  lowerOutside_eq_self fun c hc => toLower_of_isBlank (h c (outside_subset quoted t hc))

theorem trim_lowerOutside (t : Text) :
    trim (lowerOutside false t) = lowerOutside false (trim t) := by
  obtain ⟨front, back, hfront, hback, ht⟩ := exists_eq_append_trim t
  conv_lhs => rw [ht]
  rw [lowerOutside_append, lowerOutside_append, lowerOutside_of_blank hfront,
    lowerOutside_of_blank hback, quotedAfter_of_notMem _ (quote_notMem_of_blank hfront)]
  exact trim_append_of_trimmed hfront hback ((trimmed_trim t).of_lower (lower_lowerOutside false _))

end Text

/-! ## Lines that differ by letter case -/

namespace Line

variable {t u raw raw' : Text}

/-- Two lines with the same letters.  If they are `defm` lines, what stands between the keyword and
the comment is the same in case too. -/
structure SameButCase (raw raw' : Text) : Prop where
  letters : Text.SameLetters raw raw'
  message : ∀ rest, Text.afterKeyword? "defm".toList (trim (stripComment raw)) = some rest →
    Text.afterKeyword? "defm".toList (trim (stripComment raw')) = some rest

theorem lowerOutside_trim_stripComment (raw : Text) :
    lowerOutside false (trim (stripComment raw)) =
      trim (stripComment (lowerOutside false raw)) := by
  rw [← Text.trim_lowerOutside]
  refine congrArg trim (Text.splitOutsideFrom_lowerOutside (fun c => ?_) false raw).symm
  exact Text.toLower_eq_iff (by decide) (by decide)

/-- Lines with the same letters are folded to one line, or refused for the same reason. -/
theorem foldCase_congr (hletters : lowerOutside false u = lowerOutside false t)
    (hmessage : ∀ rest, Text.afterKeyword? "defm".toList t = some rest →
      Text.afterKeyword? "defm".toList u = some rest) : foldCase u = foldCase t := by
  cases hkeyword : Text.afterKeyword? "defm".toList t with
  | some rest => rw [foldCase, foldCase, hkeyword, hmessage rest hkeyword]
  | none =>
    have hlower : Text.lower u = Text.lower t := by
      rw [← Text.lower_lowerOutside false u, hletters, Text.lower_lowerOutside]
    have hcount : u.count '"' = t.count '"' := by
      rw [← Text.count_lowerOutside false u, hletters, Text.count_lowerOutside]
    rw [foldCase_eq hkeyword, foldCase_eq (Text.afterKeyword?_eq_none_of_lower hlower hkeyword),
      hletters, hcount]

/-- Without dollar signs there are no variables to define or to replace. -/
theorem read_of_notMem (vars : Variables) (h : '$' ∉ trim (stripComment raw))
    (hne : trim (stripComment raw) ≠ []) :
    read vars raw = foldCase (trim (stripComment raw)) >>= ofFolded := by
  have hhead : (trim (stripComment raw)).head? ≠ some '$' :=
    fun hhead => h (List.mem_of_head? hhead)
  rw [read_eq_substitute hne hhead, substitute_of_notMem vars h, Text.trim_trim]

/-- Letter case outside quotes does not count for what a line says. -/
theorem SameButCase.alike (h : SameButCase raw raw') (hdollar : '$' ∉ raw) : Alike raw raw' := by
  intro vars
  have hletters : lowerOutside false (trim (stripComment raw')) =
      lowerOutside false (trim (stripComment raw)) := by
    rw [lowerOutside_trim_stripComment, Text.sameLetters_iff.mp h.letters,
      ← lowerOutside_trim_stripComment]
  have hnil : trim (stripComment raw') = [] ↔ trim (stripComment raw) = [] := by
    rw [← List.length_eq_zero_iff, (Text.sameLetters_iff.mpr hletters).length,
      List.length_eq_zero_iff]
  by_cases hne : trim (stripComment raw) = []
  · rw [read, read, hne, hnil.mpr hne]
  · have hplain : '$' ∉ trim (stripComment raw) := fun hmem =>
      hdollar (Text.beforeOutside_subset ';' raw (Text.mem_of_mem_trim hmem))
    have hplain' : '$' ∉ trim (stripComment raw') := by
      have hlower : Text.lower (trim (stripComment raw')) =
          Text.lower (trim (stripComment raw)) := by
        rw [← Text.lower_lowerOutside false, hletters, Text.lower_lowerOutside]
      exact fun hmem => hplain (Text.mem_of_lower hlower
        (fun d => Text.toLower_eq_iff (by decide) (by decide)) hmem)
    rw [read_of_notMem vars hplain hne, read_of_notMem vars hplain' (hnil.not.mpr hne),
      foldCase_congr hletters h.message]

end Line

/-! ## Sources that differ by letter case -/

/-- Two sources without dollar signs whose lines differ by letter case outside quotes, and outside
the messages of `defm` lines, have the same events and the same result: one assembly, or one failure
at one line. -/
theorem trace_of_sameButCase (setup : Setup) (source source' : Text) (hdollar : '$' ∉ source)
    (hlines : List.Forall₂ Line.SameButCase source.lines source'.lines) :
    trace setup source' = trace setup source := by
  have hplain : ∀ raw ∈ source.lines, '$' ∉ raw := fun raw hraw hmem =>
    hdollar (Text.mem_of_mem_lines hraw hmem)
  have hboth := (List.forall₂_and_left _ _).mpr ⟨hplain, hlines⟩
  exact Session.run_of_alike (hboth.imp fun raw raw' h => h.2.alike h.1) Session.start

def shouted : Text := "ORG 4000H\n:TOP\nLD A,\"q\" ; LOAD\nDEFM Hello ; BYE\nJP :Top".toList

def whispered : Text := "org 4000h\n:Top\nld a,\"q\" ; load\ndefm Hello ; bye\njp :tOP".toList

/-- Keywords, labels, registers, numbers and comments change case; the quoted letter and the message
do not. -/
theorem shouted_whispered :
    '$' ∉ shouted ∧ List.Forall₂ Line.SameButCase shouted.lines whispered.lines ∧
    trace sampleSetup whispered = trace sampleSetup shouted ∧
    (assemble sampleSetup whispered).map (·.code.toList) =
      .ok [0x3E, 0x71, 0x48, 0x65, 0x6C, 0x6C, 0x6F, 0xC3, 0x00, 0x40] := by
  have hdollar : '$' ∉ shouted := by decide +kernel
  have hline : ∀ raw raw' : Text, lowerOutside false raw' = lowerOutside false raw →
      Text.afterKeyword? "defm".toList (trim (Line.stripComment raw')) =
        Text.afterKeyword? "defm".toList (trim (Line.stripComment raw)) →
      Line.SameButCase raw raw' := fun raw raw' hletters hmessage =>
    ⟨Text.sameLetters_iff.mpr hletters, fun rest hrest => hmessage.trans hrest⟩
  have hshouted : shouted.lines = ["ORG 4000H".toList, ":TOP".toList, "LD A,\"q\" ; LOAD".toList,
      "DEFM Hello ; BYE".toList, "JP :Top".toList] := by
    decide +kernel
  have hwhispered : whispered.lines = ["org 4000h".toList, ":Top".toList,
      "ld a,\"q\" ; load".toList, "defm Hello ; bye".toList, "jp :tOP".toList] := by
    decide +kernel
  have hlines : List.Forall₂ Line.SameButCase shouted.lines whispered.lines := by
    rw [hshouted, hwhispered]
    refine .cons (hline _ _ ?_ ?_) (.cons (hline _ _ ?_ ?_) (.cons (hline _ _ ?_ ?_)
      (.cons (hline _ _ ?_ ?_) (.cons (hline _ _ ?_ ?_) .nil)))) <;> decide +kernel
  have hsame := trace_of_sameButCase sampleSetup shouted whispered hdollar hlines
  refine ⟨hdollar, hlines, hsame, ?_⟩
  rw [assemble, hsame]
  decide +kernel

end Z80
