import Z80.Proofs.Line

/-!
# Folding letter case, character by character

What becomes of each character of a line when its letters are folded.  The number of quotes decides
whether a line is folded at all, and the number of quotes in front of a character whether it is.  Of
a `defm` line only the keyword is folded, whatever its quotes.
-/

namespace Z80

open Text (isBlank lower lowerOutside quotedAfter)

namespace Text

variable {c d : Char} {t u : Text}

/-- `d` is `c` in lower case: the letters from `A` to `Z` move by 32, and every other character
stays. -/
def LowerOf (c d : Char) : Prop :=
  if 65 ≤ c.toNat ∧ c.toNat ≤ 90 then d.toNat = c.toNat + 32 else d = c

theorem lowerOf_iff : LowerOf c d ↔ c.toLower = d := by
  have hsame : c.toLower = d ↔ c.toLower.toNat = d.toNat := Char.toNat_inj.symm
  rw [LowerOf, hsame, toNat_toLower]
  by_cases hletter : 65 ≤ c.toNat ∧ c.toNat ≤ 90
  · rw [if_pos hletter, if_pos hletter, eq_comm]
  · rw [if_neg hletter, if_neg hletter, Char.toNat_inj, eq_comm]

@[simp] theorem forall₂_lowerOf_iff : List.Forall₂ LowerOf t u ↔ lower t = u := by
  have hlower : LowerOf = fun c d => c.toLower = d := by
    funext c d
    exact propext lowerOf_iff
  rw [hlower, lower, ← List.forall₂_eq_eq_eq, List.forall₂_map_left_iff]

/-- Whether a character is folded depends on the quotes in front of it. -/
@[simp] theorem getElem?_lowerOutside (quoted : Bool) (t : Text) (i : Nat) :
    (lowerOutside quoted t)[i]? =
      t[i]?.map fun c => if quotedAfter quoted (t.take i) then c else c.toLower := by
  induction t generalizing quoted i with
  | nil => rfl
  | cons c rest ih =>
    cases i with
    | zero => rfl
    | succ i =>
      rw [lowerOutside, List.getElem?_cons_succ, ih, List.getElem?_cons_succ]
      rfl

@[simp] theorem length_lowerOutside (quoted : Bool) (t : Text) :
    (lowerOutside quoted t).length = t.length := by
  have hlength := congrArg List.length (lower_lowerOutside quoted t)
  rwa [lower, lower, List.length_map, List.length_map] at hlength

end Text

namespace Line

variable {t u rest : Text}

/-- The text is the keyword `defm`, in any case, and `rest` behind it, which starts with a blank
unless it is empty. -/
def IsMessage (t rest : Text) : Prop :=
  ∃ keyword, t = keyword ++ rest ∧ List.Forall₂ Text.LowerOf keyword "defm".toList ∧
    ∀ c ∈ rest.head?, isBlank c = true

/-- The same characters in lower case, but for those between the quotes: the ones with one quote in
front. -/
structure Folded (t u : Text) : Prop where
  length : u.length = t.length
  outside : ∀ (i : Nat) (c d : Char), t[i]? = some c → u[i]? = some d → (t.take i).count '"' ≠ 1 →
    Text.LowerOf c d
  inside : ∀ (i : Nat) (c d : Char), t[i]? = some c → u[i]? = some d →
    (t.take i).count '"' = 1 → d = c

theorem afterKeyword?_defm_eq_some :
    Text.afterKeyword? "defm".toList t = some rest ↔ IsMessage t rest := by
  constructor
  · intro h
    obtain ⟨keyword, ht, hkeyword, hblank⟩ := Text.afterKeyword?_eq_some h
    exact ⟨keyword, ht, Text.forall₂_lowerOf_iff.mpr hkeyword, hblank⟩
  · rintro ⟨keyword, rfl, hkeyword, hblank⟩
    have hlower : lower keyword = "defm".toList := Text.forall₂_lowerOf_iff.mp hkeyword
    have hword : ∀ c ∈ keyword, isBlank c = false := by
      intro c hc
      rw [← Text.isBlank_toLower]
      exact no_blank_defm _ (hlower ▸ List.mem_map_of_mem hc)
    rw [Text.afterKeyword?_append no_blank_defm hword hblank, if_pos hlower]

/-- With two quotes or none, a character stands between quotes if there is one in front of it. -/
theorem folded_lowerOutside (h : t.count '"' ≤ 2) : Folded t (lowerOutside false t) := by
  have hquoted : ∀ i, quotedAfter false (t.take i) = true ↔ (t.take i).count '"' = 1 := by
    intro i
    have hle : (t.take i).count '"' ≤ t.count '"' := (List.take_sublist i t).count_le '"'
    rw [Text.quotedAfter_eq_count, Bool.false_bne, beq_iff_eq]
    omega
  refine ⟨Text.length_lowerOutside false t, ?_, ?_⟩
  · intro i c d hc hd hcount
    rw [Text.getElem?_lowerOutside, hc, Option.map_some, if_neg ((hquoted i).not.mpr hcount)] at hd
    exact Text.lowerOf_iff.mpr (Option.some.inj hd)
  · intro i c d hc hd hcount
    rw [Text.getElem?_lowerOutside, hc, Option.map_some, if_pos ((hquoted i).mpr hcount)] at hd
    exact (Option.some.inj hd).symm

/-- Of a `defm` line the four letters of the keyword are folded.  Any other line is folded if and
only if it has no quote or two: then all its letters but those between the quotes.  With one quote
it is unterminated, and with three or more it has too many.  What is folded stays as it is if it is
folded again. -/
theorem folded_by_quotes (t : Text) :
    (∀ rest, IsMessage t rest → foldCase t = .ok ("defm".toList ++ rest)) ∧
    ((¬ ∃ rest, IsMessage t rest) →
      ((∃ u, foldCase t = .ok u) ↔ t.count '"' = 0 ∨ t.count '"' = 2) ∧
      (foldCase t = .error .unterminatedQuote ↔ t.count '"' = 1) ∧
      (foldCase t = .error .multipleQuotes ↔ 3 ≤ t.count '"') ∧
      ∀ u, foldCase t = .ok u → Folded t u) ∧
    ∀ u, foldCase t = .ok u → foldCase u = .ok u := by
  refine ⟨?_, ?_, fun u => foldCase_foldCase⟩
  · intro rest hmessage
    rw [foldCase, afterKeyword?_defm_eq_some.mpr hmessage]
  · intro hother
    have hkeyword : Text.afterKeyword? "defm".toList t = none :=
      Option.eq_none_iff_forall_ne_some.mpr fun rest h =>
        hother ⟨rest, afterKeyword?_defm_eq_some.mp h⟩
    refine ⟨?_, ?_, ?_, ?_⟩
    · simp only [foldCase_eq_ok hkeyword]
      constructor
      · rintro ⟨-, hcount, -⟩
        exact hcount
      · intro hcount
        exact ⟨_, hcount, rfl⟩
    · rw [foldCase_eq hkeyword]
      grind
    · rw [foldCase_eq hkeyword]
      grind
    · intro u hu
      obtain ⟨hcount, rfl⟩ := (foldCase_eq_ok hkeyword).mp hu
      exact folded_lowerOutside (by omega)

/-- A message with a quote that stays open, a line with a quoted letter, and lines with one quote
and with three. -/
theorem mixedLines_folded :
    IsMessage "DeFm \"HÉ".toList " \"HÉ".toList ∧
    foldCase "DeFm \"HÉ".toList = .ok "defm \"HÉ".toList ∧
    (¬ ∃ rest, IsMessage "LD A,\"Q\"É".toList rest) ∧
    Folded "LD A,\"Q\"É".toList "ld a,\"Q\"É".toList ∧
    (¬ ∃ rest, IsMessage "DEFMX \"".toList rest) ∧
    foldCase "DEFMX \"".toList = .error .unterminatedQuote ∧
    (¬ ∃ rest, IsMessage "\"\",\"".toList rest) ∧
    foldCase "\"\",\"".toList = .error .multipleQuotes := by
  have hmessage : IsMessage "DeFm \"HÉ".toList " \"HÉ".toList :=
    afterKeyword?_defm_eq_some.mp (by decide)
  have hother : ∀ t, Text.afterKeyword? "defm".toList t = none → ¬ ∃ rest, IsMessage t rest := by
    rintro t hnone ⟨rest, hrest⟩
    rw [afterKeyword?_defm_eq_some.mpr hrest] at hnone
    cases hnone
  have hquoted := hother "LD A,\"Q\"É".toList (by decide)
  have hone := hother "DEFMX \"".toList (by decide)
  have hthree := hother "\"\",\"".toList (by decide)
  obtain ⟨-, -, -, hfolded⟩ := (folded_by_quotes "LD A,\"Q\"É".toList).2.1 hquoted
  obtain ⟨-, hunterminated, -⟩ := (folded_by_quotes "DEFMX \"".toList).2.1 hone
  obtain ⟨-, -, hmultiple, -⟩ := (folded_by_quotes "\"\",\"".toList).2.1 hthree
  exact ⟨hmessage, (folded_by_quotes _).1 _ hmessage, hquoted, hfolded _ (by decide), hone,
    hunterminated.mpr (by decide), hthree, hmultiple.mpr (by decide)⟩

end Line

end Z80
