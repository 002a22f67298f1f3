import Mathlib.Data.List.Forall2
import Z80.Dictionary
import Z80.InstructionSet
import Z80.Proofs.Computation
import Z80.Proofs.Text
import Z80.Statement

/-!
# Statements and their texts

The canonical text of a statement is read as the same statement, so it tells the statement.  It
differs from the line that the statement was read from only by blanks outside quotes, if the quotes
of the line close and none stands in the mnemonic.
-/

namespace Z80

open Text (Trimmed Piece Cut trim quotedAfter outside squeeze isBlank)

theorem mapM_eq_ok {ε α β : Type} {f : α → Except ε β} {l : List α} {l' : List β} :
    l.mapM f = .ok l' ↔ List.Forall₂ (fun a b => f a = .ok b) l l' := by
  induction l generalizing l' with
  | nil =>
    constructor
    · intro h
      cases h
      exact .nil
    · intro h
      cases h
      rfl
  | cons a l ih =>
    rw [List.mapM_cons, bind_eq_ok]
    constructor
    · rintro ⟨b, hb, h⟩
      obtain ⟨bs, hbs, h⟩ := bind_eq_ok.mp h
      cases h
      exact .cons hb (ih.mp hbs)
    · intro h
      cases h with
      | cons hb hbs => exact ⟨_, hb, bind_eq_ok.mpr ⟨_, ih.mpr hbs, rfl⟩⟩

theorem exists_of_mem_right {α β : Type} {r : α → β → Prop} {l : List α} {l' : List β}
    (h : List.Forall₂ r l l') {b : β} (hb : b ∈ l') : ∃ a ∈ l, r a b := by
  induction h with
  | nil => cases hb
  | cons hab _ ih =>
    rcases List.mem_cons.mp hb with rfl | hb
    · exact ⟨_, List.mem_cons_self, hab⟩
    · obtain ⟨a, ha, hr⟩ := ih hb
      exact ⟨a, List.mem_cons_of_mem _ ha, hr⟩

/-! ## Operands -/

namespace Operand

variable {v : Vocabulary} {t : Text} {operand : Operand}

/-- The operand of a text in parentheses. -/
def inParentheses (v : Vocabulary) (t : Text) : Operand :=
  if v.isRegister t then indirect t else direct t

/-- The operand of a word by itself. -/
def ofWord (v : Vocabulary) (t : Text) : Operand :=
  if v.isRegister t then register t else if v.isCondition t then condition t else immediate t

@[simp] theorem spell_inParentheses (v : Vocabulary) (t : Text) :
    (inParentheses v t).spell = '(' :: (t ++ [')']) := by
  rw [inParentheses]
  split <;> rfl

@[simp] theorem spell_ofWord (v : Vocabulary) (t : Text) : (ofWord v t).spell = t := by
  rw [ofWord]
  split
  · rfl
  · split <;> rfl

/-- How a text without blanks around it stands for an operand. -/
inductive Spells (v : Vocabulary) : Text → Operand → Prop
  | label (rest : Text) (hne : trim rest ≠ []) (hcolon : ':' ∉ trim rest) :
      Spells v (':' :: rest) (.label (trim rest))
  | quoted (rest : Text) : Spells v ('"' :: rest) (.immediate ('"' :: rest))
  | parenthesized (inner : Text) (hcolon : ':' ∉ inner) :
      Spells v ('(' :: (inner ++ [')'])) (inParentheses v (trim inner))
  | word (t : Text) (hquote : t.head? ≠ some '"') (hcolon : ':' ∉ t)
      (hparentheses : parenthesized? t = none) : Spells v t (ofWord v t)

@[simp] theorem parenthesized?_eq_some {inner : Text} :
    parenthesized? t = some inner ↔ t = '(' :: (inner ++ [')']) := by
  constructor
  · intro h
    rw [parenthesized?.eq_def] at h
    split at h
    · next rest =>
      split at h
      · next hlast =>
        cases h
        rw [List.dropLast_append_getLast? _ hlast]
      · cases h
    · cases h
  · rintro rfl
    simp [parenthesized?]

/-- A text that starts neither with a colon nor with a quote is told apart by its parentheses. -/
theorem ofTrimmed_of_other (hquote : t.head? ≠ some '"') (hcolon : ':' ∉ t) :
    ofTrimmed v t = .ok (match parenthesized? t with
      | some inner => inParentheses v (trim inner)
      | none => ofWord v t) := by
  rw [ofTrimmed.eq_def]
  split
  · exact absurd List.mem_cons_self hcolon
  · exact absurd rfl hquote
  · rw [if_neg hcolon]
    cases parenthesized? t <;> rfl

theorem ofTrimmed_eq_ok : ofTrimmed v t = .ok operand ↔ Spells v t operand := by
  constructor
  · intro h
    by_cases hquote : t.head? = some '"'
    · obtain ⟨rest, rfl⟩ := List.head?_eq_some_iff.mp hquote
      cases h
      exact .quoted rest
    by_cases hcolon : ':' ∈ t
    · rw [ofTrimmed.eq_def] at h
      split at h
      · next rest =>
        dsimp only at h
        split at h
        · cases h
        · next hne =>
          split at h
          · cases h
          · next hname =>
            cases h
            exact .label rest (fun hnil => hne (List.isEmpty_iff.mpr hnil)) hname
      · exact absurd rfl hquote
      · rw [if_pos hcolon] at h
        cases h
    · rw [ofTrimmed_of_other hquote hcolon] at h
      cases hparentheses : parenthesized? t with
      | some inner =>
        rw [hparentheses] at h
        cases h
        rw [parenthesized?_eq_some] at hparentheses
        subst hparentheses
        refine .parenthesized inner fun hmem => hcolon ?_
        exact List.mem_cons_of_mem _ (List.mem_append_left _ hmem)
      | none =>
        rw [hparentheses] at h
        cases h
        exact .word t hquote hcolon hparentheses
  · intro h
    cases h with
    | label rest hne hcolon =>
      rw [ofTrimmed, if_neg, if_neg hcolon]
      exact fun hempty => hne (List.isEmpty_iff.mp hempty)
    | quoted rest => rfl
    | parenthesized inner hcolon =>
      have hinner : parenthesized? ('(' :: (inner ++ [')'])) = some inner :=
        parenthesized?_eq_some.mpr rfl
      rw [ofTrimmed_of_other (by simp) (by simpa using hcolon), hinner]
    | word t hquote hcolon hparentheses => rw [ofTrimmed_of_other hquote hcolon, hparentheses]

namespace Spells

/-- The canonical spelling of an operand is read as that operand. -/
theorem spell (h : Spells v t operand) : Spells v operand.spell operand := by
  cases h with
  | label rest hne hcolon =>
    have hspell := label (v := v) (trim rest)
    rw [Text.trim_trim] at hspell
    exact hspell hne hcolon
  | quoted rest => exact .quoted rest
  | parenthesized inner hcolon =>
    have hspell := parenthesized (v := v) (trim inner) fun hmem =>
      hcolon (Text.mem_of_mem_trim hmem)
    rwa [Text.trim_trim, ← spell_inParentheses v] at hspell
  | word t hquote hcolon hparentheses =>
    rw [spell_ofWord]
    exact .word t hquote hcolon hparentheses

theorem trimmed_spell (h : Spells v t operand) (ht : Trimmed t) : Trimmed operand.spell := by
  cases h with
  | label rest hne hcolon =>
    exact (Text.trimmed_singleton (c := ':') rfl).append (Text.trimmed_trim rest)
      (List.cons_ne_nil _ _) hne []
  | quoted rest => exact ht
  | parenthesized inner hcolon =>
    rw [spell_inParentheses]
    exact Text.trimmed_enclosed rfl rfl (trim inner)
  | word t hquote hcolon hparentheses => rwa [spell_ofWord]

theorem spell_ne_nil (h : Spells v t operand) (ht : t ≠ []) : operand.spell ≠ [] := by
  cases h with
  | label rest hne hcolon => exact List.cons_ne_nil _ _
  | quoted rest => exact List.cons_ne_nil _ _
  | parenthesized inner hcolon =>
    rw [spell_inParentheses]
    exact List.cons_ne_nil _ _
  | word t hquote hcolon hparentheses => rwa [spell_ofWord]

theorem mem_of_mem_spell (h : Spells v t operand) {c : Char} (hc : c ∈ operand.spell) : c ∈ t := by
  cases h with
  | label rest hne hcolon =>
    rcases List.mem_cons.mp hc with rfl | hc
    · exact List.mem_cons_self
    · exact List.mem_cons_of_mem _ (Text.mem_of_mem_trim hc)
  | quoted rest => exact hc
  | parenthesized inner hcolon =>
    rw [spell_inParentheses, List.mem_cons, List.mem_append] at hc
    rw [List.mem_cons, List.mem_append]
    rcases hc with hc | hc | hc
    · exact .inl hc
    · exact .inr (.inl (Text.mem_of_mem_trim hc))
    · exact .inr (.inr hc)
  | word t hquote hcolon hparentheses => rwa [spell_ofWord] at hc

/-- The canonical spelling differs by blanks outside quotes. -/
theorem squeeze_spell (h : Spells v t operand) (ht : quotedAfter false t = false) :
    squeeze false operand.spell = squeeze false t := by
  cases h with
  | label rest hne hcolon =>
    have hrest : quotedAfter false rest = false := ht
    exact congrArg (':' :: ·) (Text.squeeze_trim hrest)
  | quoted rest => rfl
  | parenthesized inner hcolon =>
    rw [Text.quotedAfter_parentheses] at ht
    rw [spell_inParentheses]
    exact Text.squeeze_parentheses (Text.squeeze_trim ht)
  | word t hquote hcolon hparentheses => rw [spell_ofWord]

/-- The canonical spelling has the same quotes. -/
theorem quotedAfter_spell (h : Spells v t operand) :
    quotedAfter false operand.spell = quotedAfter false t := by
  cases h with
  | label rest hne hcolon => exact Text.quotedAfter_trim false rest
  | quoted rest => rfl
  | parenthesized inner hcolon =>
    simp
  | word t hquote hcolon hparentheses => simp

/-- Nothing gets out of the quotes by the canonical spelling. -/
theorem outside_spell_subset (h : Spells v t operand) :
    outside false operand.spell ⊆ outside false t := by
  cases h with
  | label rest hne hcolon => exact List.cons_subset_cons _ (Text.outside_trim_subset rest)
  | quoted rest => exact List.Subset.refl _
  | parenthesized inner hcolon =>
    rw [spell_inParentheses]
    refine List.cons_subset_cons '(' ?_
    change outside false (trim inner ++ [')']) ⊆ outside false (inner ++ [')'])
    rw [Text.outside_append, Text.outside_append, Text.quotedAfter_trim]
    intro c hc
    rw [List.mem_append] at hc ⊢
    exact hc.imp_left fun hinner => Text.outside_trim_subset inner hinner
  | word t hquote hcolon hparentheses =>
    rw [spell_ofWord]
    exact List.Subset.refl _

end Spells

/-- How a piece of a list, with blanks around it or not, stands for an operand. -/
def Fills (v : Vocabulary) (piece : Text) (operand : Operand) : Prop :=
  trim piece ≠ [] ∧ Spells v (trim piece) operand

theorem Fills.trimmed_spell {piece : Text} (h : Fills v piece operand) :
    Trimmed operand.spell ∧ operand.spell ≠ [] :=
  ⟨h.2.trimmed_spell (Text.trimmed_trim piece), h.2.spell_ne_nil h.1⟩

theorem Fills.spell {piece : Text} (h : Fills v piece operand) : Fills v operand.spell operand := by
  obtain ⟨htrimmed, hne⟩ := h.trimmed_spell
  rw [Fills, Text.trim_eq_self htrimmed]
  exact ⟨hne, h.2.spell⟩

theorem Fills.quotedAfter_spell {piece : Text} (h : Fills v piece operand) :
    quotedAfter false operand.spell = quotedAfter false piece := by
  rw [h.2.quotedAfter_spell, Text.quotedAfter_trim]

theorem Fills.outside_spell_subset {piece : Text} (h : Fills v piece operand) :
    outside false operand.spell ⊆ outside false piece :=
  List.Subset.trans h.2.outside_spell_subset (Text.outside_trim_subset piece)

end Operand

/-! ## Lists of operands -/

namespace Statement

variable {v : Vocabulary} {line : Text} {s : Statement}

/-- How the text after a mnemonic stands for the operands. -/
inductive Lists (v : Vocabulary) (mnemonic : Text) : Text → List Operand → Prop
  | none : Lists v mnemonic [] []
  | message {t : Text} (hmnemonic : mnemonic = "defm".toList) (ht : t ≠ []) :
      Lists v mnemonic t [.text t]
  | pieces {t : Text} {operands : List Operand} (hmnemonic : mnemonic ≠ "defm".toList) (ht : t ≠ [])
      (hpieces : List.Forall₂ (Operand.Fills v) (Text.splitOutside ',' t) operands) :
      Lists v mnemonic t operands

theorem readOperands_eq_ok {t rest : Text} {operands : List Operand} :
    readOperands v t rest = .ok operands ↔
      List.Forall₂ (Operand.Fills v) (Text.splitOutside ',' rest) operands := by
  have hfills : Operand.Fills v = fun piece operand =>
      trim piece ≠ [] ∧ Operand.ofTrimmed v (trim piece) = .ok operand := by
    funext piece operand
    rw [Operand.ofTrimmed_eq_ok]
    rfl
  rw [hfills, List.forall₂_and_left]
  rw [readOperands]
  split
  · next hany =>
    obtain ⟨piece, hpiece, hempty⟩ := List.any_eq_true.mp hany
    refine ⟨fun h => ?_, fun h => ?_⟩
    · cases h
    · exact absurd (List.isEmpty_iff.mp hempty) (h.1 piece hpiece)
  · next hany =>
    have hne : ∀ piece ∈ Text.splitOutside ',' rest, trim piece ≠ [] := fun piece hpiece hnil =>
      hany (List.any_eq_true.mpr ⟨piece, hpiece, List.isEmpty_iff.mpr hnil⟩)
    refine mapM_eq_ok.trans ⟨fun h => ⟨hne, h⟩, fun h => h.2⟩

theorem read_eq_ok :
    read v line = .ok s ↔ s.mnemonic = (Text.splitHead (trim line)).1 ∧
      Lists v s.mnemonic (Text.splitHead (trim line)).2 s.operands := by
  obtain ⟨mnemonic, operands⟩ := s
  rw [read]
  obtain ⟨word, rest⟩ := Text.splitHead (trim line)
  dsimp only
  split
  · next hempty =>
    rw [List.isEmpty_iff] at hempty
    subst hempty
    constructor
    · intro h
      cases h
      exact ⟨rfl, .none⟩
    · rintro ⟨rfl, hlists⟩
      cases hlists with
      | none => rfl
      | message _ ht => exact absurd rfl ht
      | pieces _ ht _ => exact absurd rfl ht
  · next hempty =>
    have hne : rest ≠ [] := fun hnil => hempty (List.isEmpty_iff.mpr hnil)
    split
    · next hmessage =>
      constructor
      · intro h
        cases h
        exact ⟨rfl, .message hmessage hne⟩
      · rintro ⟨rfl, hlists⟩
        cases hlists with
        | none => exact absurd rfl hne
        | message _ _ => rfl
        | pieces hother _ _ => exact absurd hmessage hother
    · next hother =>
      constructor
      · intro h
        cases hoperands : readOperands v (trim line) rest with
        | error fault =>
          rw [hoperands] at h
          cases h
        | ok listed =>
          rw [hoperands] at h
          cases h
          exact ⟨rfl, .pieces hother hne (readOperands_eq_ok.mp hoperands)⟩
      · rintro ⟨rfl, hlists⟩
        cases hlists with
        | none => exact absurd rfl hne
        | message hmessage _ => exact absurd hmessage hother
        | pieces _ _ hpieces =>
          rw [readOperands_eq_ok.mpr hpieces]
          rfl

/-- The canonical spelling of operands. -/
def listText (operands : List Operand) : Text := [','].intercalate (operands.map Operand.spell)

@[simp] theorem listText_singleton (operand : Operand) : listText [operand] = operand.spell :=
  List.intercalate_singleton

namespace Lists

variable {mnemonic t : Text} {operands : List Operand}

theorem trimmed_spell {pieces : List Text}
    (h : List.Forall₂ (Operand.Fills v) pieces operands) :
    ∀ spelling ∈ operands.map Operand.spell, Trimmed spelling ∧ spelling ≠ [] := by
  intro spelling hspelling
  obtain ⟨operand, hoperand, rfl⟩ := List.mem_map.mp hspelling
  obtain ⟨piece, -, hfills⟩ := exists_of_mem_right h hoperand
  exact hfills.trimmed_spell

theorem trimmed (h : Lists v mnemonic t operands) (ht : Trimmed t) :
    Trimmed (listText operands) := by
  cases h with
  | none => exact ht
  | message hmnemonic hne => rwa [listText_singleton]
  | pieces hmnemonic hne hpieces => exact (Text.trimmed_intercalate _ (trimmed_spell hpieces)).1

theorem eq_nil_iff (h : Lists v mnemonic t operands) : t = [] ↔ operands = [] := by
  cases h with
  | none => exact ⟨fun _ => rfl, fun _ => rfl⟩
  | message hmnemonic hne => exact ⟨fun hnil => absurd hnil hne, fun hnil => absurd hnil (by simp)⟩
  | pieces hmnemonic hne hpieces =>
    refine ⟨fun hnil => absurd hnil hne, fun hnil => ?_⟩
    subst hnil
    cases hpieces

theorem listText_ne_nil (h : Lists v mnemonic t operands) (hoperands : operands ≠ []) :
    listText operands ≠ [] := by
  cases h with
  | none => exact absurd rfl hoperands
  | message hmnemonic hne => rwa [listText_singleton]
  | pieces hmnemonic hne hpieces =>
    refine (Text.trimmed_intercalate _ (trimmed_spell hpieces)).2 fun hnil => ?_
    exact hoperands (List.map_eq_nil_iff.mp hnil)

theorem subset (h : Lists v mnemonic t operands) : listText operands ⊆ t := by
  cases h with
  | none => exact List.Subset.refl _
  | message hmnemonic hne =>
    rw [listText_singleton]
    exact List.Subset.refl _
  | pieces hmnemonic hne hpieces =>
    conv_rhs => rw [← Text.intercalate_splitOutside ',' t]
    refine Text.intercalate_subset _ (List.forall₂_map_left_iff.mpr (.flip (hpieces.imp ?_)))
    intro piece operand hspells c hc
    exact Text.mem_of_mem_trim (hspells.2.mem_of_mem_spell hc)

theorem listText_message (h : Lists v mnemonic t operands) (hmnemonic : mnemonic = "defm".toList) :
    listText operands = t := by
  cases h with
  | none => rfl
  | message _ _ => exact listText_singleton _
  | pieces hother _ _ => exact absurd hmnemonic hother

/-- The pieces between commas and their canonical spellings differ by blanks outside quotes. -/
theorem squeeze_pieces (ht : quotedAfter false t = false)
    (h : List.Forall₂ (Operand.Fills v) (Text.splitOutside ',' t) operands) :
    List.Forall₂ (fun operand piece => squeeze false operand.spell = squeeze false piece ∧
      Piece ',' piece) operands (Text.splitOutside ',' t) := by
  have hpiece : ∀ piece ∈ Text.splitOutside ',' t, Piece ',' piece := fun piece hmem =>
    Text.piece_of_mem_splitOutside (by decide) ht hmem
  refine .flip (((List.forall₂_and_left _ _).mpr ⟨hpiece, h⟩).imp ?_)
  rintro piece operand ⟨hpiece, -, hspells⟩
  refine ⟨?_, hpiece⟩
  rw [hspells.squeeze_spell (by rw [Text.quotedAfter_trim, hpiece.closed]),
    Text.squeeze_trim hpiece.closed]

theorem squeeze_listText (h : Lists v mnemonic t operands) (ht : quotedAfter false t = false) :
    squeeze false (listText operands) = squeeze false t := by
  cases h with
  | none => rfl
  | message hmnemonic hne =>
    rw [listText_singleton]
    rfl
  | pieces hmnemonic hne hpieces =>
    conv_rhs => rw [← Text.intercalate_splitOutside ',' t]
    refine Text.squeeze_intercalate (by decide) (List.forall₂_map_left_iff.mpr ?_)
    exact (squeeze_pieces ht hpieces).imp fun operand piece h => ⟨h.1, h.2.closed⟩

/-- The canonical spellings come apart where the pieces do, between which the quotes close. -/
theorem cut_spell {pieces : List Text} (hcut : Cut ',' pieces)
    (h : List.Forall₂ (Operand.Fills v) pieces operands) :
    Cut ',' (operands.map Operand.spell) := by
  induction hcut generalizing operands with
  | last hnotMem =>
    cases h with
    | cons hfills hnil =>
      cases hnil
      exact .last fun hmem => hnotMem (hfills.outside_spell_subset hmem)
  | cons hpiece hcut ih =>
    cases h with
    | cons hfills hrest =>
      refine .cons ⟨fun hmem => hpiece.notMem (hfills.outside_spell_subset hmem), ?_⟩ (ih hrest)
      rw [hfills.quotedAfter_spell, hpiece.closed]

/-- The canonical spelling of operands is read as those operands. -/
theorem respell (h : Lists v mnemonic t operands) :
    Lists v mnemonic (listText operands) operands := by
  have heq := h.eq_nil_iff
  have hspelled := h.listText_ne_nil
  cases h with
  | none => exact .none
  | message hmnemonic hne =>
    rw [listText_singleton]
    exact .message hmnemonic hne
  | pieces hmnemonic hne hpieces =>
    have hoperands : operands ≠ [] := fun hnil => hne (heq.mpr hnil)
    have hcut := cut_spell (Text.cut_splitOutside (by decide) t) hpieces
    refine .pieces hmnemonic (hspelled hoperands) ?_
    rw [listText, Text.splitOutside_intercalate (by decide) hcut, List.forall₂_map_left_iff,
      List.forall₂_same]
    intro operand hoperand
    obtain ⟨piece, -, hfills⟩ := exists_of_mem_right hpieces hoperand
    exact hfills.spell

end Lists

/-! ## Statements -/

theorem text_eq (s : Statement) :
    s.text = if s.operands = [] then s.mnemonic else s.mnemonic ++ ' ' :: listText s.operands := by
  rw [text, join]
  simp only [List.isEmpty_iff]
  rfl

/-- The text of a statement starts with its mnemonic. -/
theorem exists_text_eq_append (s : Statement) :
    ∃ rest, s.text = s.mnemonic ++ rest ∧ ∀ c ∈ rest.head?, isBlank c = true := by
  rw [text_eq]
  split
  · exact ⟨[], (List.append_nil _).symm, Text.isBlank_head?_nil⟩
  · exact ⟨' ' :: listText s.operands, rfl, Text.isBlank_head?_space _⟩

/-- A line that is read as a statement is its mnemonic and the text of its operands. -/
theorem exists_of_read (h : read v line = .ok s) :
    ∃ rest, trim line = s.mnemonic ++ rest ∧ (∀ c ∈ s.mnemonic, isBlank c = false) ∧
      (∀ c ∈ rest.head?, isBlank c = true) ∧ Lists v s.mnemonic (trim rest) s.operands := by
  obtain ⟨hmnemonic, hlists⟩ := read_eq_ok.mp h
  obtain ⟨rest, hline, htrim, hword, hblank⟩ := Text.exists_eq_word_append (trim line)
  rw [← hmnemonic] at hline hword
  rw [htrim] at hlists
  exact ⟨rest, hline, hword, hblank, hlists⟩

theorem mnemonic_ne_nil (h : read v line = .ok s) (hoperands : s.operands ≠ []) :
    s.mnemonic ≠ [] := by
  obtain ⟨rest, hline, -, hblank, hlists⟩ := exists_of_read h
  intro hnil
  rw [hnil, List.nil_append] at hline
  cases rest with
  | nil => exact hoperands (hlists.eq_nil_iff.mp rfl)
  | cons c rest =>
    have hhead : isBlank c = false := (Text.trimmed_trim line).head c (by rw [hline]; rfl)
    rw [hblank c rfl] at hhead
    cases hhead

theorem trimmed_text (h : read v line = .ok s) : Trimmed s.text := by
  obtain ⟨rest, -, hword, -, hlists⟩ := exists_of_read h
  have hmnemonic := Text.trimmed_of_no_blank hword
  rw [text_eq]
  split
  · exact hmnemonic
  · next hoperands =>
    exact hmnemonic.append (hlists.trimmed (Text.trimmed_trim rest)) (mnemonic_ne_nil h hoperands)
      (hlists.listText_ne_nil hoperands) [' ']

theorem splitHead_text (h : read v line = .ok s) :
    Text.splitHead s.text = (s.mnemonic, listText s.operands) := by
  obtain ⟨rest, -, hword, -, hlists⟩ := exists_of_read h
  rw [text_eq]
  split
  · next hoperands =>
    have hsplit := Text.splitHead_append hword Text.isBlank_head?_nil
    rw [List.append_nil] at hsplit
    rw [hsplit, hoperands]
    rfl
  · rw [Text.splitHead_append hword (Text.isBlank_head?_space _), Text.trim_cons_of_blank rfl,
      Text.trim_eq_self (hlists.trimmed (Text.trimmed_trim rest))]

/-- Quotes that close in the line close among the operands. -/
theorem quotedAfter_rest {mnemonic rest : Text} (hline : trim line = mnemonic ++ rest)
    (hmnemonic : '"' ∉ mnemonic) : quotedAfter false rest = quotedAfter false line := by
  rw [← Text.quotedAfter_trim false line, hline, Text.quotedAfter_append,
    Text.quotedAfter_of_notMem _ hmnemonic]

/-- The canonical text of a statement is read as that statement. -/
theorem read_text (h : read v line = .ok s) : read v s.text = .ok s := by
  obtain ⟨rest, -, -, -, hlists⟩ := exists_of_read h
  rw [read_eq_ok, Text.trim_eq_self (trimmed_text h), splitHead_text h]
  exact ⟨rfl, hlists.respell⟩

/-- The canonical text of a statement differs from the line by blanks outside quotes. -/
theorem squeeze_text (h : read v line = .ok s) (hmnemonic : '"' ∉ s.mnemonic)
    (hclosed : quotedAfter false line = false) : squeeze false s.text = squeeze false line := by
  obtain ⟨rest, hline, -, -, hlists⟩ := exists_of_read h
  have hrest : quotedAfter false rest = false := by rw [quotedAfter_rest hline hmnemonic, hclosed]
  have hlist : squeeze false (listText s.operands) = squeeze false rest := by
    rw [hlists.squeeze_listText (by rw [Text.quotedAfter_trim, hrest]), Text.squeeze_trim hrest]
  rw [← Text.squeeze_trim hclosed, hline, Text.squeeze_append,
    Text.quotedAfter_of_notMem _ hmnemonic, ← hlist, text_eq]
  split
  · next hoperands =>
    rw [hoperands]
    exact (List.append_nil _).symm
  · rw [Text.squeeze_append, Text.quotedAfter_of_notMem _ hmnemonic]
    rfl

theorem mem_of_mem_text (h : read v line = .ok s) {c : Char} (hc : c ∈ s.text) :
    c ∈ line ∨ c = ' ' := by
  obtain ⟨rest, hline, -, -, hlists⟩ := exists_of_read h
  have hmem : ∀ d, d ∈ s.mnemonic ∨ d ∈ rest → d ∈ line := by
    intro d hd
    refine Text.mem_of_mem_trim ?_
    rw [hline]
    exact List.mem_append.mpr hd
  rw [text_eq] at hc
  split at hc
  · exact .inl (hmem c (.inl hc))
  · rw [List.mem_append, List.mem_cons] at hc
    rcases hc with hc | hc | hc
    · exact .inl (hmem c (.inl hc))
    · exact .inr hc
    · exact .inl (hmem c (.inr (Text.mem_of_mem_trim (hlists.subset hc))))

/-! ## Statements told by their texts -/

/-- Of the statements that can be read, no two have the same text. -/
theorem eq_of_text_eq {line' : Text} {s' : Statement} (h : read v line = .ok s)
    (h' : read v line' = .ok s') (htext : s.text = s'.text) : s = s' := by
  have hread := read_text h
  rw [htext, read_text h'] at hread
  exact (Except.ok.inj hread).symm

end Statement

@[simp] theorem OpcodeTable.fixed?_insertFixed (table : OpcodeTable) (key key' : Text)
    (bytes : List UInt8) :
    (table.insertFixed key bytes).fixed? key' =
      if key' = key then some bytes else table.fixed? key' :=
  Dictionary.lookup_cons_eq_ite key' (key, bytes) table.fixed

namespace Statement

/-- Whatever line a statement was read from, its canonical text is read as that statement.  So of
all statements that can be read no other has that text, and an entry that a table gets for it is
found by no other. -/
theorem text_tells_statement {v : Vocabulary} {line : Text} {s : Statement}
    (h : read v line = .ok s) :
    read v s.text = .ok s ∧
    ∀ line' s', read v line' = .ok s' →
      (s.text = s'.text → s.mnemonic = s'.mnemonic ∧ s.operands = s'.operands) ∧
      ∀ (table : OpcodeTable) (bytes : List UInt8),
        (table.insertFixed s.text bytes).fixed? s'.text =
          if s' = s then some bytes else table.fixed? s'.text := by
  refine ⟨read_text h, fun line' s' h' => ⟨fun htext => ?_, fun table bytes => ?_⟩⟩
  · rw [eq_of_text_eq h h' htext]
    exact ⟨rfl, rfl⟩
  · rw [OpcodeTable.fixed?_insertFixed]
    refine if_congr ⟨fun htext => eq_of_text_eq h' h htext, ?_⟩ rfl rfl
    rintro rfl
    rfl

/-- A line with blanks wherever they may stand, and with a quote that stays open. -/
def looseLine : Text := "\t defb  \",\" , ( 5 ) , : a \"b,  c ".toList

def looseStatement : Statement where
  mnemonic := "defb".toList
  operands := [.immediate "\",\"".toList, .direct "5".toList, .label "a \"b,  c".toList]

/-- The blanks behind the open quote stay, and tell the statement from one that has none there. -/
theorem looseLine_told :
    read InstructionSet.vocabulary looseLine = .ok looseStatement ∧
    looseStatement.text = "defb \",\",(5),:a \"b,  c".toList ∧
    read InstructionSet.vocabulary looseStatement.text = .ok looseStatement ∧
    (InstructionSet.table.insertFixed looseStatement.text [1]).fixed?
      "defb \",\",(5),:a \"b,c".toList = none := by
  have hloose : read InstructionSet.vocabulary looseLine = .ok looseStatement := by decide +kernel
  obtain ⟨htext, hother⟩ := text_tells_statement hloose
  have htight : read InstructionSet.vocabulary "defb \",\",(5),:a \"b,c".toList =
      .ok ⟨"defb".toList,
        [.immediate "\",\"".toList, .direct "5".toList, .label "a \"b,c".toList]⟩ := by
    decide +kernel
  refine ⟨hloose, by decide, htext, ((hother _ _ htight).2 InstructionSet.table [1]).trans ?_⟩
  decide +kernel

end Statement

end Z80
