import Z80.Proofs.Statement

/-!
# Blanks around operands

The operands of a statement are read from the pieces between its commas, each without the blanks at
its ends (`read_of_laidOut`).  So a line may have blanks around its pieces, around itself, and any
number of them behind its mnemonic.  What stands behind a colon or in parentheses is trimmed once
more, so there blanks do not count either, but for the faults that name the piece as it was written.
-/

namespace Z80

open Text (trim isBlank quotedAfter squeeze Piece Cut)

/-! ## Faults of one kind -/

/-- Faults that differ at most in what they name. -/
def Fault.SameKind (fault fault' : Fault) : Prop := fault.ctorIdx = fault'.ctorIdx

/-- Both computations give the same, or fail with faults of the same kind. -/
inductive AgreesInKind {α : Type} : Except Fault α → Except Fault α → Prop
  | ok (a : α) : AgreesInKind (.ok a) (.ok a)
  | error {fault fault' : Fault} (h : fault.SameKind fault') :
      AgreesInKind (.error fault) (.error fault')

namespace AgreesInKind

variable {α β : Type}

theorem refl (x : Except Fault α) : AgreesInKind x x := by
  cases x with
  | ok a => exact .ok a
  | error fault => exact .error rfl

theorem bind {x y : Except Fault α} {f g : α → Except Fault β} (h : AgreesInKind x y)
    (hfg : ∀ a, AgreesInKind (f a) (g a)) : AgreesInKind (x >>= f) (y >>= g) := by
  cases h with
  | ok a => exact hfg a
  | error hkind => exact .error hkind

theorem map {x y : Except Fault α} (h : AgreesInKind x y) (f : α → β) :
    AgreesInKind (x.map f) (y.map f) := by
  cases h with
  | ok a => exact .ok (f a)
  | error hkind => exact .error hkind

/-- Lists whose members agree one by one are read alike: the first fault comes at the same place. -/
theorem mapM {γ : Type} {f : α → Except Fault γ} {g : β → Except Fault γ} {l : List α} {l' : List β}
    (h : List.Forall₂ (fun a b => AgreesInKind (f a) (g b)) l l') :
    AgreesInKind (l.mapM f) (l'.mapM g) := by
  induction h with
  | nil => exact .ok []
  | cons hab _ ih =>
    rw [List.mapM_cons, List.mapM_cons]
    refine hab.bind fun c => ih.bind fun cs => ?_
    exact refl _

end AgreesInKind

/-! ## Blanks put around a text -/

namespace Text

/-- The text with blanks put around it. -/
inductive Padded (t : Text) : Text → Prop
  | intro {front back : Text} (hfront : ∀ c ∈ front, isBlank c = true)
      (hback : ∀ c ∈ back, isBlank c = true) : Padded t (front ++ (t ++ back))

namespace Padded

variable {t u : Text}

theorem refl (t : Text) : Padded t t := by
  have h : Padded t ([] ++ (t ++ [])) := .intro (List.forall_mem_nil _) (List.forall_mem_nil _)
  rwa [List.append_nil] at h

theorem trim_eq (h : Padded t u) : trim u = trim t := by
  cases h with
  | intro hfront hback => exact trim_append_of_blank hfront hback t

theorem squeeze_eq (h : Padded t u) (ht : quotedAfter false t = false) :
    squeeze false u = squeeze false t := by
  cases h with
  | intro hfront hback =>
    rw [squeeze_append, squeeze_of_blank hfront,
      quotedAfter_of_notMem _ (quote_notMem_of_blank hfront), squeeze_append, ht,
      squeeze_of_blank hback, List.append_nil, List.nil_append]

theorem mem_iff (h : Padded t u) {c : Char} (hc : isBlank c = false) : c ∈ u ↔ c ∈ t := by
  cases h with
  | intro hfront hback =>
    simp [notMem_of_blank hfront hc, notMem_of_blank hback hc]

end Padded

/-- The piece with blanks put behind its colon, or inside its parentheses. -/
inductive Widened : Text → Text → Prop
  | same (t : Text) : Widened t t
  | label {t u : Text} (h : Padded t u) : Widened (':' :: t) (':' :: u)
  | parenthesized {t u : Text} (h : Padded t u) :
      Widened ('(' :: (t ++ [')'])) ('(' :: (u ++ [')']))

theorem Widened.squeeze_eq {t u : Text} (h : Widened t u) (ht : quotedAfter false t = false) :
    squeeze false u = squeeze false t := by
  cases h with
  | same t => rfl
  | label h => exact congrArg (':' :: ·) (h.squeeze_eq ht)
  | parenthesized h =>
    rw [quotedAfter_parentheses] at ht
    exact squeeze_parentheses (h.squeeze_eq ht)

end Text

/-! ## Operands with blanks in them -/

namespace Operand

variable {v : Vocabulary} {t u : Text}

@[simp] theorem read_colon (v : Vocabulary) (t : Text) :
    read v (':' :: t) = if (trim t).isEmpty then .error .emptyLabel
      else if ':' ∈ trim t then .error (.misplacedLabel (trim (':' :: t)))
      else .ok (.label (trim t)) := by
  have hstart : trim (':' :: t) = ':' :: Text.trimEnd t :=
    Text.trim_append_of_start (Text.trimmed_singleton (c := ':') rfl) (List.cons_ne_nil _ _) t
  rw [read, hstart, ofTrimmed, Text.trim_trimEnd]

theorem ofTrimmed_of_misplaced (hstart : t.head? ≠ some ':') (hquote : t.head? ≠ some '"')
    (hcolon : ':' ∈ t) : ofTrimmed v t = .error (.misplacedLabel t) := by
  rw [ofTrimmed.eq_def]
  split
  · exact absurd rfl hstart
  · exact absurd rfl hquote
  · rw [if_pos hcolon]

@[simp] theorem read_parentheses (v : Vocabulary) (t : Text) :
    read v ('(' :: (t ++ [')'])) =
      if ':' ∈ t then .error (.misplacedLabel ('(' :: (t ++ [')'])))
      else .ok (inParentheses v (trim t)) := by
  have htrim : trim ('(' :: (t ++ [')'])) = '(' :: (t ++ [')']) :=
    Text.trim_eq_self (Text.trimmed_enclosed rfl rfl t)
  rw [read, htrim]
  split
  · next hcolon => exact ofTrimmed_of_misplaced (by simp) (by simp) (by simp [hcolon])
  · next hcolon => exact ofTrimmed_eq_ok.mpr (.parenthesized t hcolon)

/-- Blanks behind a colon or in parentheses do not count for what a piece stands for. -/
theorem agrees_of_widened (v : Vocabulary) (h : Text.Widened t u) :
    AgreesInKind (read v t) (read v u) := by
  cases h with
  | same t => exact .refl _
  | @label t u h =>
    rw [read_colon, read_colon, h.trim_eq]
    split
    · exact .refl _
    · split
      · exact .error rfl
      · exact .refl _
  | @parenthesized t u h =>
    rw [read_parentheses, read_parentheses, h.trim_eq]
    simp only [h.mem_iff (c := ':') rfl]
    split
    · exact .error rfl
    · exact .refl _

end Operand

/-! ## Lines with blanks in them -/

namespace Statement

variable {v : Vocabulary} {mnemonic line : Text} {pieces : List Text}

/-- A line that lists the pieces behind the mnemonic, with blanks around them and around itself. -/
inductive LaidOut (mnemonic : Text) (pieces : List Text) : Text → Prop
  | intro {before gap after : Text} {padded : List Text} (hbefore : ∀ c ∈ before, isBlank c = true)
      (hgap : ∀ c ∈ gap, isBlank c = true) (hne : gap ≠ [])
      (hpadded : List.Forall₂ Text.Padded pieces padded) (hafter : ∀ c ∈ after, isBlank c = true) :
      LaidOut mnemonic pieces
        (before ++ (mnemonic ++ (gap ++ ([','].intercalate padded ++ after))))

/-- The line with one space behind the mnemonic and no other blanks between the pieces. -/
def plainLine (mnemonic : Text) (pieces : List Text) : Text :=
  mnemonic ++ ' ' :: [','].intercalate pieces

theorem laidOut_plainLine (mnemonic : Text) (pieces : List Text) :
    LaidOut mnemonic pieces (plainLine mnemonic pieces) := by
  have h :
      LaidOut mnemonic pieces ([] ++ (mnemonic ++ ([' '] ++ ([','].intercalate pieces ++ [])))) :=
    .intro (List.forall_mem_nil _) (List.forall_mem_singleton.mpr rfl) (List.cons_ne_nil _ _)
      (List.forall₂_same.mpr fun t _ => .refl t) (List.forall_mem_nil _)
  rwa [List.nil_append, List.append_nil] at h

/-- What can be listed between commas: a piece that is not blank. -/
structure Listable (t : Text) : Prop where
  piece : Piece ',' t
  ne_nil : trim t ≠ []

/-- Quotes in pairs, and every comma behind an odd number of them. -/
theorem Listable.of_count {t : Text} (hne : trim t ≠ []) (hquotes : t.count '"' % 2 = 0)
    (hcommas : ∀ before after, t = before ++ ',' :: after → before.count '"' % 2 = 1) :
    Listable t where
  piece := ⟨(Text.notMem_outside_iff_count (by decide)).mpr hcommas,
    Text.quotedAfter_false_iff.mpr hquotes⟩
  ne_nil := hne

/-- A mnemonic with pieces that can be listed behind it. -/
structure Itemized (mnemonic : Text) (pieces : List Text) : Prop where
  mnemonic_ne_nil : mnemonic ≠ []
  word : ∀ c ∈ mnemonic, isBlank c = false
  other : mnemonic ≠ "defm".toList
  ne_nil : pieces ≠ []
  listable : ∀ piece ∈ pieces, Listable piece

/-- Other pieces may be listed instead, one for each. -/
theorem Itemized.of_forall₂ {pieces' : List Text} {r : Text → Text → Prop}
    (h : Itemized mnemonic pieces) (hpieces : List.Forall₂ r pieces pieces')
    (hr : ∀ t u, Listable t → r t u → Listable u) :
    Itemized mnemonic pieces' := by
  refine ⟨h.mnemonic_ne_nil, h.word, h.other, ?_, fun piece hpiece => ?_⟩
  · rintro rfl
    cases hpieces
    exact h.ne_nil rfl
  · obtain ⟨t, ht, hrt⟩ := exists_of_mem_right hpieces hpiece
    exact hr t piece (h.listable t ht) hrt

theorem Itemized.trimmed (h : Itemized mnemonic pieces) : Itemized mnemonic (pieces.map trim) := by
  refine h.of_forall₂ (r := fun t u => u = trim t) ?_ ?_
  · exact List.forall₂_map_right_iff.mpr (List.forall₂_same.mpr fun _ _ => rfl)
  · rintro t _ ht rfl
    refine ⟨ht.piece.of_squeeze rfl (Text.squeeze_trim ht.piece.closed), ?_⟩
    rw [Text.trim_trim]
    exact ht.ne_nil

theorem Itemized.padded {padded : List Text} (h : Itemized mnemonic pieces)
    (hpadded : List.Forall₂ Text.Padded pieces padded) : Itemized mnemonic padded := by
  refine h.of_forall₂ hpadded fun t u ht hpad => ?_
  refine ⟨ht.piece.of_squeeze rfl (hpad.squeeze_eq ht.piece.closed), ?_⟩
  rw [hpad.trim_eq]
  exact ht.ne_nil

theorem Itemized.widened {widened : List Text} (h : Itemized mnemonic pieces)
    (hwidened : List.Forall₂ Text.Widened pieces widened) : Itemized mnemonic widened := by
  refine h.of_forall₂ hwidened fun t u ht hwide => ?_
  refine ⟨ht.piece.of_squeeze rfl (hwide.squeeze_eq ht.piece.closed), ?_⟩
  cases hwide with
  | same t => exact ht.ne_nil
  | label _ => exact Text.trim_ne_nil List.mem_cons_self rfl
  | parenthesized _ => exact Text.trim_ne_nil List.mem_cons_self rfl

/-- Blanks around pieces do not make other pieces. -/
theorem map_trim_splitOutside_of_padded {padded : List Text} (h : Itemized mnemonic pieces)
    (hpadded : List.Forall₂ Text.Padded pieces padded) :
    (Text.splitOutside ',' (trim ([','].intercalate padded))).map trim = pieces.map trim := by
  have hcut : Cut ',' padded :=
    .of_pieces (h.padded hpadded).ne_nil fun piece hpiece =>
      ((h.padded hpadded).listable piece hpiece).piece
  rw [Text.map_trim_splitOutside (by decide) rfl, Text.splitOutside_intercalate (by decide) hcut,
    ← List.forall₂_eq_eq_eq, List.forall₂_map_left_iff, List.forall₂_map_right_iff]
  exact .flip (hpadded.imp fun _ _ hpad => hpad.trim_eq)

theorem readOperands_eq {t rest : Text}
    (h : ∀ piece ∈ (Text.splitOutside ',' rest).map trim, piece ≠ []) :
    readOperands v t rest = ((Text.splitOutside ',' rest).map trim).mapM (Operand.ofTrimmed v) := by
  have hany : ¬ (Text.splitOutside ',' rest).any (fun piece => (trim piece).isEmpty) = true := by
    simpa using h
  rw [readOperands, if_neg hany, List.mapM_map]
  rfl

/-- The operands of a line are read from its pieces, each without the blanks around it. -/
theorem read_of_laidOut (hitems : Itemized mnemonic pieces) (h : LaidOut mnemonic pieces line) :
    read v line = (pieces.mapM (Operand.read v)).map fun operands => ⟨mnemonic, operands⟩ := by
  obtain @⟨before, gap, after, padded, hbefore, hgap, hgapNe, hpadded, hafter⟩ := h
  -- the mnemonic is the first word, and the list behind it is left without the blanks at its ends
  have hhead : ∀ c ∈ (Text.trimEnd (gap ++ ([','].intercalate padded ++ after))).head?,
      isBlank c = true := by
    intro c hc
    obtain ⟨d, gap, rfl⟩ := List.exists_cons_of_ne_nil hgapNe
    cases Text.mem_head?_of_trimEnd hc
    exact hgap c List.mem_cons_self
  have hsplit :
      Text.splitHead (trim (before ++ (mnemonic ++ (gap ++ ([','].intercalate padded ++ after))))) =
      (mnemonic, trim ([','].intercalate padded)) := by
    have hstart := Text.trim_append_of_blank hbefore (List.forall_mem_nil _)
      (mnemonic ++ (gap ++ ([','].intercalate padded ++ after)))
    rw [List.append_nil] at hstart
    rw [hstart,
      Text.trim_append_of_start (Text.trimmed_of_no_blank hitems.word) hitems.mnemonic_ne_nil,
      Text.splitHead_append hitems.word hhead, Text.trim_trimEnd,
      Text.trim_append_of_blank hgap hafter]
  have hread := map_trim_splitOutside_of_padded hitems hpadded
  have htrimmed : ∀ piece ∈ pieces.map trim, piece ≠ [] := by
    intro piece hpiece
    obtain ⟨t, ht, rfl⟩ := List.mem_map.mp hpiece
    exact (hitems.listable t ht).ne_nil
  have hlist : trim ([','].intercalate padded) ≠ [] := by
    intro hnil
    rw [hnil] at hread
    exact htrimmed [] (hread ▸ List.mem_cons_self) rfl
  rw [← hread] at htrimmed
  rw [read, hsplit]
  dsimp only
  rw [if_neg fun hempty => hlist (List.isEmpty_iff.mp hempty), if_neg hitems.other,
    readOperands_eq htrimmed, hread, List.mapM_map]
  rfl

/-- The pieces of the plain line are read as those of any other. -/
theorem read_plainLine (hitems : Itemized mnemonic pieces) :
    read v (plainLine mnemonic (pieces.map trim)) =
      (pieces.mapM (Operand.read v)).map fun operands => ⟨mnemonic, operands⟩ := by
  have hread : Operand.read v ∘ trim = Operand.read v := by
    funext piece
    simp [Operand.read, Text.trim_trim]
  rw [read_of_laidOut hitems.trimmed (laidOut_plainLine mnemonic _), List.mapM_map, hread]

/-- Let a line list pieces behind a mnemonic, none of them blank, each with its quotes in pairs and
its commas inside of them.  Blanks around the line, around the pieces and more of them behind the
mnemonic change neither the statement nor the fault.  Nor do blanks behind the colon or inside the
parentheses of a piece change the statement, or the kind of the fault. -/
theorem blanks_around_operands (v : Vocabulary) {mnemonic : Text} {pieces : List Text}
    (hmnemonic : mnemonic ≠ []) (hword : ∀ c ∈ mnemonic, isBlank c = false)
    (hother : mnemonic ≠ "defm".toList) (hne : pieces ≠ [])
    (hpieces : ∀ piece ∈ pieces, trim piece ≠ [] ∧ piece.count '"' % 2 = 0 ∧
      ∀ before after, piece = before ++ ',' :: after → before.count '"' % 2 = 1) :
    (∀ line, LaidOut mnemonic pieces line →
      read v line = read v (plainLine mnemonic (pieces.map trim))) ∧
    ∀ widened line, List.Forall₂ Text.Widened pieces widened → LaidOut mnemonic widened line →
      AgreesInKind (read v (plainLine mnemonic (pieces.map trim))) (read v line) := by
  have hitems : Itemized mnemonic pieces := by
    refine ⟨hmnemonic, hword, hother, hne, fun piece hpiece => ?_⟩
    obtain ⟨hblank, hquotes, hcommas⟩ := hpieces piece hpiece
    exact .of_count hblank hquotes hcommas
  rw [read_plainLine hitems]
  constructor
  · intro line hline
    exact read_of_laidOut hitems hline
  · intro widened line hwidened hline
    rw [read_of_laidOut (hitems.widened hwidened) hline]
    refine .map (.mapM (hwidened.imp fun t u hwide => ?_)) _
    exact Operand.agrees_of_widened v hwide

def spacedPieces : List Text := ["(hl)".toList, ":up".toList, "\" ,\"".toList]

def widenedPieces : List Text := ["(\thl )".toList, ": up".toList, "\" ,\"".toList]

def spacedLine : Text := " ld\t (\thl ),: up  , \" ,\" ".toList

/-- The blank between quotes stays, and no other. -/
theorem spacedLine_read :
    List.Forall₂ Text.Widened spacedPieces widenedPieces ∧
    LaidOut "ld".toList widenedPieces spacedLine ∧
    plainLine "ld".toList (spacedPieces.map trim) = "ld (hl),:up,\" ,\"".toList ∧
    read InstructionSet.vocabulary (plainLine "ld".toList (spacedPieces.map trim)) =
      .ok ⟨"ld".toList, [.indirect "hl".toList, .label "up".toList, .immediate "\" ,\"".toList]⟩ ∧
    AgreesInKind (read InstructionSet.vocabulary (plainLine "ld".toList (spacedPieces.map trim)))
      (read InstructionSet.vocabulary spacedLine) := by
  have hpadded : ∀ t front back : Text, front.all isBlank → back.all isBlank →
      Text.Padded t (front ++ (t ++ back)) :=
    fun _ _ _ hfront hback => .intro (List.all_eq_true.mp hfront) (List.all_eq_true.mp hback)
  have hwidened : List.Forall₂ Text.Widened spacedPieces widenedPieces := by
    refine .cons (@Text.Widened.parenthesized "hl".toList "\thl ".toList ?_)
      (.cons (.label ?_) (.cons (.same _) .nil))
    · exact hpadded "hl".toList "\t".toList " ".toList (by decide) (by decide)
    · exact hpadded "up".toList " ".toList [] (by decide) (by decide)
  have hlaidOut : LaidOut "ld".toList widenedPieces spacedLine := by
    refine @LaidOut.intro _ _ " ".toList "\t ".toList " ".toList
      ["(\thl )".toList, ": up  ".toList, " \" ,\"".toList] (List.all_eq_true.mp (by decide))
      (List.all_eq_true.mp (by decide)) (by decide) ?_ (List.all_eq_true.mp (by decide))
    refine .cons (.refl _) (.cons ?_ (.cons ?_ .nil))
    · exact hpadded ": up".toList [] "  ".toList (by decide) (by decide)
    · exact hpadded "\" ,\"".toList " ".toList [] (by decide) (by decide)
  have hpieces : ∀ piece ∈ spacedPieces, trim piece ≠ [] ∧ piece.count '"' % 2 = 0 ∧
      ∀ before after, piece = before ++ ',' :: after → before.count '"' % 2 = 1 := by
    have hchecked : ∀ piece ∈ spacedPieces, trim piece ≠ [] ∧ piece.count '"' % 2 = 0 ∧
        ',' ∉ Text.outside false piece := by
      decide
    intro piece hpiece
    obtain ⟨hblank, hquotes, hcommas⟩ := hchecked piece hpiece
    exact ⟨hblank, hquotes, (Text.notMem_outside_iff_count (by decide)).mp hcommas⟩
  refine ⟨hwidened, hlaidOut, by decide, by decide, ?_⟩
  have hword : ∀ c ∈ "ld".toList, isBlank c = false := Text.no_blank_of_all (by decide)
  exact (blanks_around_operands InstructionSet.vocabulary (by decide) hword (by decide) (by decide)
    hpieces).2 _ _ hwidened hlaidOut

end Statement

end Z80
