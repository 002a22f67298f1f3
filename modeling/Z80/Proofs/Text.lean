import Mathlib.Data.List.DropRight
import Mathlib.Data.List.Forall2
import Z80.Text

/-!
# Blanks, quotes, pieces and lines

What trimming and splitting do to a text.  Two views of a text carry most of it: the characters
outside its quotes, and the text without the blanks outside its quotes.  Trimming and spelling with
other blanks change neither the second view nor, but for blanks, the first.
-/

namespace Z80.Text

/-! ## Blanks at the ends -/

/-- No blank stands at either end. -/
structure Trimmed (t : Text) : Prop where
  head : ∀ c ∈ t.head?, isBlank c = false
  last : ∀ c ∈ t.getLast?, isBlank c = false

theorem trim_eq_self {t : Text} (h : Trimmed t) : trim t = t := by
  have hstart : trimStart t = t := by
    cases t with
    | nil => rfl
    | cons c rest => exact List.dropWhile_cons_of_neg (by rw [h.head c rfl]; decide)
  have hend : trimEnd t = t := by
    refine List.rdropWhile_eq_self_iff.mpr fun hne => ?_
    rw [h.last _ (List.getLast?_eq_some_getLast hne)]
    decide
  rw [trim, hstart, hend]

/-- Trimming takes blanks from the ends and nothing else. -/
theorem exists_eq_append_trim (t : Text) :
    ∃ front back, (∀ c ∈ front, isBlank c = true) ∧ (∀ c ∈ back, isBlank c = true) ∧
      t = front ++ (trim t ++ back) := by
  refine ⟨t.takeWhile isBlank, (trimStart t).rtakeWhile isBlank,
    fun c => List.mem_takeWhile_imp, fun c => List.mem_rtakeWhile_imp, ?_⟩
  have hback : trim t ++ (trimStart t).rtakeWhile isBlank = trimStart t :=
    List.rdropWhile_append_rtakeWhile
  rw [hback]
  exact List.takeWhile_append_dropWhile.symm

theorem mem_head?_of_trimEnd {t : Text} {c : Char} (h : c ∈ (trimEnd t).head?) : c ∈ t.head? := by
  obtain ⟨back, hback⟩ : trimEnd t <+: t := List.rdropWhile_prefix isBlank t
  rw [← hback, List.head?_append, h, Option.some_or]
  rfl

theorem trimmed_trim (t : Text) : Trimmed (trim t) where
  head c hc := by
    have hhead : (t.dropWhile isBlank).head? = some c := mem_head?_of_trimEnd hc
    have hnot := List.head?_dropWhile_not isBlank t
    rw [hhead] at hnot
    exact hnot
  last c hc := by
    obtain ⟨hne, rfl⟩ := List.mem_getLast?_eq_getLast hc
    exact Bool.not_eq_true _ ▸ List.rdropWhile_last_not isBlank (trimStart t) hne

@[simp] theorem trim_trim (t : Text) : trim (trim t) = trim t := trim_eq_self (trimmed_trim t)

theorem mem_of_mem_trim {t : Text} {c : Char} (h : c ∈ trim t) : c ∈ t := by
  obtain ⟨front, back, -, -, ht⟩ := exists_eq_append_trim t
  rw [ht]
  exact List.mem_append_right _ (List.mem_append_left _ h)

/-- What is not blank is not trimmed away. -/
theorem trim_ne_nil {t : Text} {c : Char} (h : c ∈ t) (hc : isBlank c = false) : trim t ≠ [] := by
  intro hnil
  obtain ⟨front, back, hfront, hback, ht⟩ := exists_eq_append_trim t
  rw [ht, hnil, List.nil_append, List.mem_append] at h
  rcases h with h | h
  · simp [hfront c h] at hc
  · simp [hback c h] at hc

/-- A blank in front does not count. -/
theorem trim_cons_of_blank {c : Char} (h : isBlank c = true) (t : Text) :
    trim (c :: t) = trim t := by
  rw [trim, trimStart, List.dropWhile_cons_of_pos h]
  rfl

theorem trimStart_append_of_blank {front : Text} (h : ∀ c ∈ front, isBlank c = true) (t : Text) :
    trimStart (front ++ t) = trimStart t := List.dropWhile_append_of_pos h

theorem trimEnd_append_of_blank {back : Text} (h : ∀ c ∈ back, isBlank c = true) (t : Text) :
    trimEnd (t ++ back) = trimEnd t := by
  rw [trimEnd, List.reverse_append, List.dropWhile_append_of_pos fun c hc =>
    h c (List.mem_reverse.mp hc)]
  rfl

/-- What has no blanks at its ends is left if there are blanks around it. -/
theorem trim_append_of_trimmed {front t back : Text} (hfront : ∀ c ∈ front, isBlank c = true)
    (hback : ∀ c ∈ back, isBlank c = true) (ht : Trimmed t) : trim (front ++ (t ++ back)) = t := by
  rw [trim, trimStart_append_of_blank hfront]
  cases t with
  | nil =>
    have hnil : trimStart back = [] := List.dropWhile_eq_nil_iff.mpr hback
    rw [List.nil_append, hnil]
    rfl
  | cons c rest =>
    have hstart : ∀ u, trimStart (c :: u) = c :: u := fun u =>
      List.dropWhile_cons_of_neg (by rw [ht.head c rfl]; decide)
    have htrim := trim_eq_self ht
    rw [trim, hstart] at htrim
    rw [List.cons_append, hstart, ← List.cons_append, trimEnd_append_of_blank hback, htrim]

/-- More blanks at the ends do not count. -/
theorem trim_append_of_blank {front back : Text} (hfront : ∀ c ∈ front, isBlank c = true)
    (hback : ∀ c ∈ back, isBlank c = true) (t : Text) : trim (front ++ (t ++ back)) = trim t := by
  obtain ⟨front', back', hfront', hback', ht⟩ := exists_eq_append_trim t
  have happend : front ++ (t ++ back) = (front ++ front') ++ (trim t ++ (back' ++ back)) := by
    conv_lhs => rw [ht]
    simp only [List.append_assoc]
  rw [happend]
  refine trim_append_of_trimmed ?_ ?_ (trimmed_trim t)
  · exact fun c hc => (List.mem_append.mp hc).elim (hfront c) (hfront' c)
  · exact fun c hc => (List.mem_append.mp hc).elim (hback' c) (hback c)

/-- Behind a start without blanks around it, only blanks at the end go. -/
theorem trim_append_of_start {front : Text} (h : Trimmed front) (hne : front ≠ []) (t : Text) :
    trim (front ++ t) = front ++ trimEnd t := by
  have hsplit : front ++ t = [] ++ ((front ++ trimEnd t) ++ t.rtakeWhile isBlank) := by
    rw [List.nil_append, List.append_assoc]
    exact congrArg (front ++ ·) List.rdropWhile_append_rtakeWhile.symm
  rw [hsplit]
  refine trim_append_of_trimmed (List.forall_mem_nil _) (fun c => List.mem_rtakeWhile_imp) ⟨?_, ?_⟩
  · intro c hc
    obtain ⟨d, rest, rfl⟩ := List.exists_cons_of_ne_nil hne
    exact h.head c hc
  · intro c hc
    by_cases hnil : trimEnd t = []
    · rw [hnil, List.append_nil] at hc
      exact h.last c hc
    · rw [List.getLast?_append_of_ne_nil _ hnil] at hc
      obtain ⟨hne', rfl⟩ := List.mem_getLast?_eq_getLast hc
      exact Bool.not_eq_true _ ▸ List.rdropWhile_last_not isBlank t hne'

@[simp] theorem trim_trimEnd (t : Text) : trim (trimEnd t) = trim t := by
  have hback : trim ([] ++ (trimEnd t ++ t.rtakeWhile isBlank)) = trim (trimEnd t) :=
    trim_append_of_blank (List.forall_mem_nil _) (fun c => List.mem_rtakeWhile_imp) _
  rw [← hback, List.nil_append]
  exact congrArg trim List.rdropWhile_append_rtakeWhile

theorem trimmed_of_no_blank {t : Text} (h : ∀ c ∈ t, isBlank c = false) : Trimmed t where
  head c hc := h c (List.mem_of_head? hc)
  last c hc := h c (List.mem_of_getLast? hc)

theorem trimmed_singleton {c : Char} (h : isBlank c = false) : Trimmed [c] :=
  trimmed_of_no_blank (List.forall_mem_singleton.mpr h)

theorem no_blank_of_all {t : Text} (h : t.all (!isBlank ·) = true) : ∀ c ∈ t, isBlank c = false :=
  fun c hc => by simpa using List.all_eq_true.mp h c hc

theorem Trimmed.append {a b : Text} (ha : Trimmed a) (hb : Trimmed b) (hane : a ≠ [])
    (hbne : b ≠ []) (middle : Text) : Trimmed (a ++ (middle ++ b)) where
  head c hc := by
    obtain ⟨d, rest, rfl⟩ := List.exists_cons_of_ne_nil hane
    exact ha.head c hc
  last c hc := by
    rw [← List.append_assoc, List.getLast?_append_of_ne_nil _ hbne] at hc
    exact hb.last c hc

theorem trimmed_enclosed {first last : Char} (hfirst : isBlank first = false)
    (hlast : isBlank last = false) (t : Text) : Trimmed (first :: (t ++ [last])) :=
  (trimmed_singleton hfirst).append (trimmed_singleton hlast) (List.cons_ne_nil _ _)
    (List.cons_ne_nil _ _) t

/-- No printable character of ASCII but the space is blank. -/
theorem isBlank_of_printable {c : Char} (hlow : 32 < c.toNat) (hhigh : c.toNat < 127) :
    isBlank c = false := by
  simp only [isBlank, Bool.or_eq_false_iff, Bool.and_eq_false_iff, decide_eq_false_iff_not,
    beq_eq_false_iff_ne]
  omega

/-! ## Letter case -/

/-- The letters `A` to `Z` move by 32, and every other character stays. -/
theorem toNat_toLower (c : Char) :
    c.toLower.toNat = if 65 ≤ c.toNat ∧ c.toNat ≤ 90 then c.toNat + 32 else c.toNat := by
  have hrange : (c.val ≥ 'A'.val ∧ c.val ≤ 'Z'.val) ↔ 65 ≤ c.toNat ∧ c.toNat ≤ 90 :=
    and_congr UInt32.le_iff_toNat_le UInt32.le_iff_toNat_le
  by_cases h : c.val ≥ 'A'.val ∧ c.val ≤ 'Z'.val
  · have hmoved : c.toLower.val = c.val + ('a'.val - 'A'.val) := congrArg Char.val (dif_pos h)
    have hhigh : c.val.toNat ≤ 90 := (hrange.mp h).2
    rw [if_pos (hrange.mp h)]
    change c.toLower.val.toNat = c.val.toNat + 32
    -- the sum does not pass 32 bits
    rw [hmoved, UInt32.toNat_add]
    change (c.val.toNat + 32) % 4294967296 = c.val.toNat + 32
    omega
  · rw [if_neg fun hletter => h (hrange.mpr hletter)]
    exact congrArg Char.toNat (dif_neg h)

/-- A character stays as it is, or is one of `A` to `Z` and moves by 32. -/
theorem toLower_cases (c : Char) :
    c.toLower = c ∨ 65 ≤ c.toNat ∧ c.toNat ≤ 90 ∧ c.toLower.toNat = c.toNat + 32 := by
  have hmoved := toNat_toLower c
  split at hmoved
  · next h => exact .inr ⟨h.1, h.2, hmoved⟩
  · exact .inl (Char.toNat_inj.mp hmoved)

theorem toLower_toLower (c : Char) : c.toLower.toLower = c.toLower := by
  rcases toLower_cases c with h | ⟨hlow, -, hmoved⟩
  · rw [h, h]
  · rcases toLower_cases c.toLower with h | ⟨-, hhigh, -⟩
    · exact h
    · omega

@[simp] theorem lower_lower (t : Text) : lower (lower t) = lower t := by
  simp only [lower, List.map_map, Function.comp_def, toLower_toLower]

/-- Only letters are lower case for something else. -/
theorem toLower_eq_iff {c d : Char} (hupper : d.toNat < 65 ∨ 90 < d.toNat)
    (hlower : d.toNat < 97 ∨ 122 < d.toNat) : c.toLower = d ↔ c = d := by
  rcases toLower_cases c with h | ⟨hlow, hhigh, hmoved⟩
  · rw [h]
  · constructor
    · rintro rfl
      omega
    · rintro rfl
      omega

/-- Each small letter is lower case for itself and for the capital one. -/
theorem toLower_eq_letter_iff {c d capital : Char} (hcapital : capital.toNat + 32 = d.toNat)
    (hlow : 97 ≤ d.toNat) (hhigh : d.toNat ≤ 122) : c.toLower = d ↔ c = d ∨ c = capital := by
  rw [← Char.toNat_inj, ← Char.toNat_inj, ← Char.toNat_inj, toNat_toLower]
  split <;> omega

@[simp] theorem toLower_eq_quote {c : Char} : c.toLower = '"' ↔ c = '"' :=
  toLower_eq_iff (by decide) (by decide)

@[simp] theorem isBlank_toLower (c : Char) : isBlank c.toLower = isBlank c := by
  rcases toLower_cases c with h | ⟨hlow, hhigh, hmoved⟩
  · rw [h]
  · rw [isBlank_of_printable (c := c) (by omega) (by omega),
      isBlank_of_printable (by omega) (by omega)]

theorem toLower_of_isBlank {c : Char} (h : isBlank c = true) : c.toLower = c := by
  rcases toLower_cases c with hc | ⟨hlow, hhigh, -⟩
  · exact hc
  · rw [isBlank_of_printable (by omega) (by omega)] at h
    cases h

/-- Letters of either case take one byte. -/
@[simp] theorem length_utf8_lower (t : Text) : (utf8 (lower t)).length = (utf8 t).length := by
  have hsize : ∀ c : Char, c.toLower.utf8Size = c.utf8Size := by
    intro c
    rcases toLower_cases c with h | ⟨-, hhigh, hmoved⟩
    · rw [h]
    · have hone : ∀ d : Char, d.toNat ≤ 127 → d.utf8Size = 1 := fun d hd =>
        Char.utf8Size_eq_one_iff.mpr (UInt32.le_iff_toNat_le.mpr hd)
      rw [hone c (by omega), hone c.toLower (by omega)]
  simp only [utf8, lower, List.length_flatMap, List.map_map, Function.comp_def,
    String.length_utf8EncodeChar, hsize]

theorem length_utf8_of_one_byte {t : Text} (h : ∀ c ∈ t, c.utf8Size = 1) :
    t.utf8.length = t.length := by
  induction t with
  | nil => rfl
  | cons c rest ih =>
    obtain ⟨hc, hrest⟩ := List.forall_mem_cons.mp h
    change (String.utf8EncodeChar c ++ utf8 rest).length = rest.length + 1
    rw [List.length_append, String.length_utf8EncodeChar, hc, ih hrest, Nat.add_comm]

/-- Every character has a byte. -/
theorem utf8_ne_nil {t : Text} (h : t ≠ []) : t.utf8 ≠ [] := by
  obtain ⟨c, rest, rfl⟩ := List.exists_cons_of_ne_nil h
  refine List.append_ne_nil_of_left_ne_nil (List.ne_nil_of_length_pos ?_) _
  rw [String.length_utf8EncodeChar]
  exact c.utf8Size_pos

theorem trim_lower (t : Text) : trim (lower t) = lower (trim t) := by
  have hblank : isBlank ∘ Char.toLower = isBlank := funext isBlank_toLower
  simp only [trim, trimStart, trimEnd, lower, List.dropWhile_map, ← List.map_reverse, hblank]

/-! ## The first word -/

theorem isBlank_head?_nil : ∀ c ∈ ([] : Text).head?, isBlank c = true :=
  fun c hc => absurd hc (Option.not_mem_none c)

theorem isBlank_head?_space (t : Text) : ∀ c ∈ (' ' :: t).head?, isBlank c = true := by
  rintro c ⟨⟩
  rfl

theorem takeWhile_append_stop {p : Char → Bool} {a b : Text} (ha : ∀ c ∈ a, p c = true)
    (hb : ∀ c ∈ b.head?, p c = false) : (a ++ b).takeWhile p = a ∧ (a ++ b).dropWhile p = b := by
  rw [List.takeWhile_append_of_pos ha, List.dropWhile_append_of_pos ha]
  cases b with
  | nil => exact ⟨List.append_nil _, rfl⟩
  | cons c b =>
    have hstop : ¬ p c = true := by
      rw [hb c rfl]
      exact Bool.false_ne_true
    rw [List.takeWhile_cons_of_neg hstop, List.append_nil]
    exact ⟨rfl, List.dropWhile_cons_of_neg hstop⟩

/-- The first word ends where a blank stands, or with the text. -/
theorem takeWhile_word {word rest : Text} (hword : ∀ c ∈ word, isBlank c = false)
    (hrest : ∀ c ∈ rest.head?, isBlank c = true) :
    (word ++ rest).takeWhile (!isBlank ·) = word ∧ (word ++ rest).dropWhile (!isBlank ·) = rest :=
  takeWhile_append_stop (fun c hc => by rw [hword c hc]; rfl) fun c hc => by rw [hrest c hc]; rfl

theorem splitHead_append {word rest : Text} (hword : ∀ c ∈ word, isBlank c = false)
    (hrest : ∀ c ∈ rest.head?, isBlank c = true) :
    splitHead (word ++ rest) = (word, trim rest) := by
  obtain ⟨htake, hdrop⟩ := takeWhile_word hword hrest
  rw [splitHead, htake, hdrop]

/-- A text is its first word and what follows. -/
theorem exists_eq_word_append (t : Text) :
    ∃ rest, t = (splitHead t).1 ++ rest ∧ (splitHead t).2 = trim rest ∧
      (∀ c ∈ (splitHead t).1, isBlank c = false) ∧ ∀ c ∈ rest.head?, isBlank c = true := by
  refine ⟨t.dropWhile (!isBlank ·), List.takeWhile_append_dropWhile.symm, rfl, ?_, ?_⟩
  · intro c hc
    simpa using List.mem_takeWhile_imp hc
  · intro c hc
    have hnot := List.head?_dropWhile_not (!isBlank ·) t
    rw [show (t.dropWhile (!isBlank ·)).head? = some c from hc] at hnot
    simpa using hnot

/-- A keyword is the first word. -/
theorem afterKeyword?_append {keyword word rest : Text}
    (hkeyword : ∀ c ∈ keyword, isBlank c = false) (hword : ∀ c ∈ word, isBlank c = false)
    (hrest : ∀ c ∈ rest.head?, isBlank c = true) :
    afterKeyword? keyword (word ++ rest) = if lower word = keyword then some rest else none := by
  by_cases h : lower word = keyword
  · have hlength : keyword.length = word.length := by
      rw [← h, lower, List.length_map]
    rw [if_pos h, afterKeyword?, hlength, List.take_left, List.drop_left, if_pos]
    refine ⟨h, ?_⟩
    cases hhead : rest.head? with
    | none => rfl
    | some c => exact hrest c hhead
  · rw [if_neg h, afterKeyword?, if_neg]
    rintro ⟨htake, hdrop⟩
    -- otherwise the keyword would be the first word
    have hnone : ∀ c ∈ (word ++ rest).take keyword.length, isBlank c = false := by
      intro c hc
      rw [← isBlank_toLower]
      exact hkeyword _ (htake ▸ List.mem_map_of_mem hc)
    have hblank : ∀ c ∈ ((word ++ rest).drop keyword.length).head?, isBlank c = true := by
      intro c hc
      rw [hc] at hdrop
      exact hdrop
    have hsame := (takeWhile_word hnone hblank).1
    rw [List.take_append_drop, (takeWhile_word hword hrest).1] at hsame
    exact h (hsame ▸ htake)

/-! ## Quotes -/

/-- Whether the end of a text stands inside quotes, given whether its start does. -/
def quotedAfter (quoted : Bool) (t : Text) : Bool := t.foldl (fun q c => q != (c == '"')) quoted

/-- The characters outside the quotes. -/
def outside (quoted : Bool) : Text → Text
  | [] => []
  | c :: rest =>
    let later := outside (quoted != (c == '"')) rest
    if quoted || c == '"' then later else c :: later

/-- The text without the blanks outside its quotes. -/
def squeeze (quoted : Bool) : Text → Text
  | [] => []
  | c :: rest =>
    let later := squeeze (quoted != (c == '"')) rest
    if !quoted && isBlank c then later else c :: later

@[simp] theorem quotedAfter_append (quoted : Bool) (a b : Text) :
    quotedAfter quoted (a ++ b) = quotedAfter (quotedAfter quoted a) b := List.foldl_append

/-- What goes through a text character by character, and knows of the text before only whether a
quote is open, goes through two texts one after the other. -/
theorem append_of_scan {f : Bool → Text → Text} {g : Bool → Char → Text} (hnil : ∀ q, f q [] = [])
    (hcons : ∀ q c rest, f q (c :: rest) = g q c ++ f (q != (c == '"')) rest) (quoted : Bool)
    (a b : Text) : f quoted (a ++ b) = f quoted a ++ f (quotedAfter quoted a) b := by
  induction a generalizing quoted with
  | nil =>
    rw [hnil]
    rfl
  | cons c rest ih =>
    rw [List.cons_append, hcons, hcons, ih, List.append_assoc]
    rfl

theorem outside_cons (quoted : Bool) (c : Char) (rest : Text) :
    outside quoted (c :: rest) =
      (if quoted || c == '"' then [] else [c]) ++ outside (quoted != (c == '"')) rest := by
  rw [outside]
  split <;> rfl

@[simp] theorem outside_append (quoted : Bool) (a b : Text) :
    outside quoted (a ++ b) = outside quoted a ++ outside (quotedAfter quoted a) b :=
  append_of_scan (fun _ => rfl) outside_cons quoted a b

theorem squeeze_cons (quoted : Bool) (c : Char) (rest : Text) :
    squeeze quoted (c :: rest) =
      (if !quoted && isBlank c then [] else [c]) ++ squeeze (quoted != (c == '"')) rest := by
  rw [squeeze]
  split <;> rfl

@[simp] theorem squeeze_append (quoted : Bool) (a b : Text) :
    squeeze quoted (a ++ b) = squeeze quoted a ++ squeeze (quotedAfter quoted a) b :=
  append_of_scan (fun _ => rfl) squeeze_cons quoted a b

theorem outside_subset (quoted : Bool) (t : Text) : outside quoted t ⊆ t := by
  induction t generalizing quoted with
  | nil => exact List.Subset.refl _
  | cons c rest ih =>
    rw [outside]
    split
    · exact List.subset_cons_of_subset c (ih _)
    · exact List.cons_subset_cons c (ih _)

/-- A character stands outside the quotes if the quotes before it close. -/
theorem mem_outside_iff {quoted : Bool} {t : Text} {c : Char} (hc : c ≠ '"') :
    c ∈ outside quoted t ↔ ∃ before after, t = before ++ c :: after ∧
      quotedAfter quoted before = false := by
  constructor
  · intro h
    induction t generalizing quoted with
    | nil => cases h
    | cons d rest ih =>
      rw [outside] at h
      split at h
      · obtain ⟨before, after, rfl, hclosed⟩ := ih h
        exact ⟨d :: before, after, rfl, hclosed⟩
      · next hout =>
        rw [Bool.or_eq_true, not_or, Bool.not_eq_true] at hout
        rcases List.mem_cons.mp h with rfl | h
        · exact ⟨[], rest, rfl, hout.1⟩
        · obtain ⟨before, after, rfl, hclosed⟩ := ih h
          exact ⟨d :: before, after, rfl, hclosed⟩
  · rintro ⟨before, after, rfl, hclosed⟩
    rw [outside_append, hclosed, outside, beq_false_of_ne hc]
    exact List.mem_append_right _ List.mem_cons_self

/-! ### Texts without quotes -/

theorem quotedAfter_of_notMem (quoted : Bool) {t : Text} (h : '"' ∉ t) :
    quotedAfter quoted t = quoted := by
  induction t with
  | nil => rfl
  | cons c rest ih =>
    rw [List.mem_cons, not_or] at h
    change quotedAfter (quoted != (c == '"')) rest = quoted
    rw [beq_false_of_ne (Ne.symm h.1), Bool.bne_false, ih h.2]

theorem outside_of_notMem {t : Text} (h : '"' ∉ t) : outside false t = t := by
  induction t with
  | nil => rfl
  | cons c rest ih =>
    rw [List.mem_cons, not_or] at h
    rw [outside, beq_false_of_ne (Ne.symm h.1)]
    exact congrArg (c :: ·) (ih h.2)

theorem outside_quoted {t : Text} (h : '"' ∉ t) : outside false ('"' :: (t ++ ['"'])) = [] := by
  have hinside : outside true t = [] := by
    induction t with
    | nil => rfl
    | cons c rest ih =>
      rw [List.mem_cons, not_or] at h
      rw [outside, beq_false_of_ne (Ne.symm h.1)]
      exact ih h.2
  change outside true (t ++ ['"']) = []
  rw [outside_append, quotedAfter_of_notMem _ h, hinside]
  rfl

theorem quotedAfter_eq_count (quoted : Bool) (t : Text) :
    quotedAfter quoted t = (quoted != (t.count '"' % 2 == 1)) := by
  induction t generalizing quoted with
  | nil => exact (Bool.bne_false quoted).symm
  | cons c rest ih =>
    change quotedAfter (quoted != (c == '"')) rest = _
    rw [ih, List.count_cons]
    cases c == '"' with
    | false => rw [Bool.bne_false, if_neg Bool.false_ne_true, Nat.add_zero]
    | true =>
      rw [if_pos rfl]
      rcases Nat.mod_two_eq_zero_or_one (rest.count '"') with h | h
      · rw [Nat.add_mod, h]
        cases quoted <;> rfl
      · rw [Nat.add_mod, h]
        cases quoted <;> rfl

theorem quotedAfter_false_iff {t : Text} : quotedAfter false t = false ↔ t.count '"' % 2 = 0 := by
  rw [quotedAfter_eq_count, Bool.false_bne, beq_eq_false_iff_ne]
  omega

/-- A character stands outside the quotes if the number of quotes before it is even. -/
theorem mem_outside_iff_count {t : Text} {c : Char} (hc : c ≠ '"') :
    c ∈ outside false t ↔ ∃ before after, t = before ++ c :: after ∧ before.count '"' % 2 = 0 := by
  simp only [mem_outside_iff hc, quotedAfter_false_iff]

theorem notMem_outside_iff_count {t : Text} {c : Char} (hc : c ≠ '"') :
    c ∉ outside false t ↔ ∀ before after, t = before ++ c :: after → before.count '"' % 2 = 1 := by
  rw [mem_outside_iff_count hc]
  constructor
  · intro h before after ht
    by_contra hodd
    exact h ⟨before, after, ht, by omega⟩
  · rintro h ⟨before, after, ht, heven⟩
    have hodd := h before after ht
    omega

/-! ### Blanks are no quotes -/

theorem notMem_of_blank {t : Text} (h : ∀ c ∈ t, isBlank c = true) {c : Char}
    (hc : isBlank c = false) :
    c ∉ t := by
  intro hmem
  rw [h c hmem] at hc
  cases hc

theorem quote_notMem_of_blank {t : Text} (h : ∀ c ∈ t, isBlank c = true) : '"' ∉ t :=
  notMem_of_blank h rfl

theorem beq_quote_of_blank {c : Char} (h : isBlank c = true) : (c == '"') = false := by
  refine beq_false_of_ne ?_
  rintro rfl
  exact absurd h (by decide)

theorem outside_cons_of_blank {c : Char} (h : isBlank c = true) (rest : Text) :
    outside false (c :: rest) = c :: outside false rest := by
  rw [outside, beq_quote_of_blank h]
  rfl

theorem squeeze_cons_of_blank {c : Char} (h : isBlank c = true) (rest : Text) :
    squeeze false (c :: rest) = squeeze false rest := by
  rw [squeeze, h, beq_quote_of_blank h]
  rfl

theorem squeeze_of_blank {t : Text} (h : ∀ c ∈ t, isBlank c = true) : squeeze false t = [] := by
  induction t with
  | nil => rfl
  | cons c rest ih =>
    rw [squeeze_cons_of_blank (h c List.mem_cons_self)]
    exact ih fun d hd => h d (List.mem_cons_of_mem _ hd)

/-! ### Trimming -/

@[simp] theorem quotedAfter_trim (quoted : Bool) (t : Text) :
    quotedAfter quoted (trim t) = quotedAfter quoted t := by
  obtain ⟨front, back, hfront, hback, ht⟩ := exists_eq_append_trim t
  conv_rhs => rw [ht]
  rw [quotedAfter_append, quotedAfter_append,
    quotedAfter_of_notMem _ (quote_notMem_of_blank hfront),
    quotedAfter_of_notMem _ (quote_notMem_of_blank hback)]

theorem outside_trim_subset (t : Text) : outside false (trim t) ⊆ outside false t := by
  obtain ⟨front, back, hfront, -, ht⟩ := exists_eq_append_trim t
  conv_rhs => rw [ht]
  rw [outside_append, outside_append, quotedAfter_of_notMem _ (quote_notMem_of_blank hfront)]
  exact fun c hc => List.mem_append_right _ (List.mem_append_left _ hc)

/-- If the quotes close, trimming takes only blanks outside of them. -/
theorem squeeze_trim {t : Text} (h : quotedAfter false t = false) :
    squeeze false (trim t) = squeeze false t := by
  obtain ⟨front, back, hfront, hback, ht⟩ := exists_eq_append_trim t
  conv_rhs => rw [ht]
  rw [squeeze_append, squeeze_append, quotedAfter_of_notMem _ (quote_notMem_of_blank hfront),
    quotedAfter_trim, h, squeeze_of_blank hfront, squeeze_of_blank hback, List.nil_append,
    List.append_nil]

/-! ### What squeezing keeps -/

theorem squeeze_cons_of_kept {quoted : Bool} {c : Char} (h : quoted = true ∨ isBlank c = false)
    (rest : Text) :
    squeeze quoted (c :: rest) = c :: squeeze (quoted != (c == '"')) rest := by
  rw [squeeze, if_neg]
  rcases h with rfl | h
  · exact Bool.false_ne_true
  · rw [h, Bool.and_false]
    exact Bool.false_ne_true

/-- A character is a blank outside quotes, and goes, or stays. -/
theorem blank_or_kept (quoted : Bool) (c : Char) :
    quoted = false ∧ isBlank c = true ∨ (quoted = true ∨ isBlank c = false) := by
  cases quoted <;> cases isBlank c <;> decide

@[simp] theorem quotedAfter_squeeze (quoted : Bool) (t : Text) :
    quotedAfter quoted (squeeze quoted t) = quotedAfter quoted t := by
  induction t generalizing quoted with
  | nil => rfl
  | cons c rest ih =>
    rcases blank_or_kept quoted c with ⟨rfl, hblank⟩ | hkept
    · rw [squeeze_cons_of_blank hblank, ih]
      change _ = quotedAfter (false != (c == '"')) rest
      rw [beq_quote_of_blank hblank]
      rfl
    · rw [squeeze_cons_of_kept hkept]
      exact ih _

theorem quotedAfter_of_squeeze {quoted : Bool} {t u : Text}
    (h : squeeze quoted u = squeeze quoted t) :
    quotedAfter quoted u = quotedAfter quoted t := by
  rw [← quotedAfter_squeeze, h, quotedAfter_squeeze]

@[simp] theorem quotedAfter_parentheses (t : Text) :
    quotedAfter false ('(' :: (t ++ [')'])) = quotedAfter false t := by
  change quotedAfter false (t ++ [')']) = quotedAfter false t
  rw [quotedAfter_append, quotedAfter_of_notMem _ (by decide)]

theorem squeeze_parentheses {t u : Text} (h : squeeze false u = squeeze false t) :
    squeeze false ('(' :: (u ++ [')'])) = squeeze false ('(' :: (t ++ [')'])) := by
  change '(' :: squeeze false (u ++ [')']) = '(' :: squeeze false (t ++ [')'])
  rw [squeeze_append, squeeze_append, h, quotedAfter_of_squeeze h]

@[simp] theorem outside_squeeze (quoted : Bool) (t : Text) :
    outside quoted (squeeze quoted t) = (outside quoted t).filter (!isBlank ·) := by
  induction t generalizing quoted with
  | nil => rfl
  | cons c rest ih =>
    rcases blank_or_kept quoted c with ⟨rfl, hblank⟩ | hkept
    · rw [squeeze_cons_of_blank hblank, ih, outside_cons_of_blank hblank, List.filter_cons_of_neg]
      rw [hblank]
      decide
    · rw [squeeze_cons_of_kept hkept, outside, outside, ih]
      split
      · rfl
      · next hout =>
        rw [List.filter_cons_of_pos]
        rcases hkept with rfl | hblank
        · exact absurd rfl hout
        · rw [hblank]
          rfl

@[simp]
theorem count_squeeze (quoted : Bool) (t : Text) : (squeeze quoted t).count '"' = t.count '"' := by
  induction t generalizing quoted with
  | nil => rfl
  | cons c rest ih =>
    rcases blank_or_kept quoted c with ⟨rfl, hblank⟩ | hkept
    · rw [squeeze_cons_of_blank hblank, ih, List.count_cons, beq_quote_of_blank hblank]
      rfl
    · rw [squeeze_cons_of_kept hkept, List.count_cons, List.count_cons, ih]

/-! ## Pieces

A piece may stand between separators if it holds none outside its quotes and its quotes close. -/

structure Piece (separator : Char) (t : Text) : Prop where
  notMem : separator ∉ outside false t
  closed : quotedAfter false t = false

variable {separator : Char}

/-- Blanks outside quotes do not count for what stands outside quotes, but for themselves. -/
theorem mem_outside_of_squeeze {t u : Text} (h : squeeze false u = squeeze false t) {c : Char}
    (hc : c ∈ outside false u) (hblank : isBlank c = false) : c ∈ outside false t := by
  have hkept : c ∈ outside false (squeeze false u) := by
    rw [outside_squeeze, List.mem_filter, hblank]
    exact ⟨hc, rfl⟩
  rw [h, outside_squeeze] at hkept
  exact List.mem_of_mem_filter hkept

/-- Blanks outside quotes do not count for what is a piece. -/
theorem Piece.of_squeeze {t u : Text} (h : Piece separator t) (hblank : isBlank separator = false)
    (hsqueeze : squeeze false u = squeeze false t) : Piece separator u where
  notMem hmem := h.notMem (mem_outside_of_squeeze hsqueeze hmem hblank)
  closed := by rw [quotedAfter_of_squeeze hsqueeze, h.closed]

/-- Up to its first unquoted separator a text is in one piece. -/
theorem splitOutsideFrom_append {quoted : Bool} {a : Text} (hseparator : separator ≠ '"')
    (h : separator ∉ outside quoted a) (b : Text) :
    splitOutsideFrom separator quoted (a ++ b) =
      (a ++ (splitOutsideFrom separator (quotedAfter quoted a) b).1,
        (splitOutsideFrom separator (quotedAfter quoted a) b).2) := by
  induction a generalizing quoted with
  | nil => rfl
  | cons c rest ih =>
    have hnot : ¬ (c = separator ∧ quoted = false) := by
      rintro ⟨rfl, rfl⟩
      refine h ?_
      rw [outside, beq_false_of_ne hseparator]
      exact List.mem_cons_self
    have hrest : separator ∉ outside (quoted != (c == '"')) rest := by
      intro hmem
      refine h ?_
      rw [outside]
      split
      · exact hmem
      · exact List.mem_cons_of_mem _ hmem
    rw [List.cons_append, splitOutsideFrom, if_neg hnot, ih hrest]
    rfl

theorem beforeOutside_eq_self {t : Text} (hseparator : separator ≠ '"')
    (h : separator ∉ outside false t) : beforeOutside separator t = t := by
  have happend := splitOutsideFrom_append hseparator h []
  rw [List.append_nil] at happend
  rw [beforeOutside, happend]
  exact List.append_nil t

/-- What is outside quotes and holds no separator stays in front. -/
theorem beforeOutside_append {a : Text} (hseparator : separator ≠ '"') (h : Piece separator a)
    (b : Text) :
    beforeOutside separator (a ++ b) = a ++ beforeOutside separator b := by
  rw [beforeOutside, splitOutsideFrom_append hseparator h.notMem, h.closed]
  rfl

/-- What follows the first unquoted separator does not count. -/
theorem splitOutsideFrom_fst_append {quoted : Bool} {a : Text} (h : separator ∈ outside quoted a)
    (b : Text) :
    (splitOutsideFrom separator quoted (a ++ b)).1 = (splitOutsideFrom separator quoted a).1 := by
  induction a generalizing quoted with
  | nil => cases h
  | cons c rest ih =>
    rw [List.cons_append, splitOutsideFrom, splitOutsideFrom]
    split
    · rfl
    · next hkept =>
      refine congrArg (c :: ·) (ih ?_)
      rw [outside] at h
      split at h
      · exact h
      · next hout =>
        rw [Bool.or_eq_true, not_or, Bool.not_eq_true] at hout
        rcases List.mem_cons.mp h with heq | h
        · exact absurd ⟨heq.symm, hout.1⟩ hkept
        · exact h

theorem beforeOutside_append_of_mem {a : Text} (h : separator ∈ outside false a) (b : Text) :
    beforeOutside separator (a ++ b) = beforeOutside separator a :=
  splitOutsideFrom_fst_append h b

theorem notMem_outside_splitOutsideFrom (separator : Char) (quoted : Bool) (t : Text) :
    separator ∉ outside quoted (splitOutsideFrom separator quoted t).1 ∧
      ∀ piece ∈ (splitOutsideFrom separator quoted t).2, separator ∉ outside false piece := by
  induction t generalizing quoted with
  | nil => exact ⟨List.not_mem_nil, fun _ h => absurd h List.not_mem_nil⟩
  | cons c rest ih =>
    rw [splitOutsideFrom]
    split
    · next hsplit =>
      obtain ⟨hfirst, hlater⟩ := ih quoted
      rw [hsplit.2] at hfirst hlater ⊢
      refine ⟨List.not_mem_nil, fun piece hpiece => ?_⟩
      rcases List.mem_cons.mp hpiece with rfl | hpiece
      · exact hfirst
      · exact hlater piece hpiece
    · next hkept =>
      obtain ⟨hfirst, hlater⟩ := ih (quoted != (c == '"'))
      refine ⟨fun hmem => ?_, hlater⟩
      rw [outside] at hmem
      split at hmem
      · exact hfirst hmem
      · next hout =>
        rw [Bool.or_eq_true, not_or, Bool.not_eq_true] at hout
        rcases List.mem_cons.mp hmem with heq | hmem
        · exact hkept ⟨heq.symm, hout.1⟩
        · exact hfirst hmem

theorem notMem_outside_beforeOutside (separator : Char) (t : Text) :
    separator ∉ outside false (beforeOutside separator t) :=
  (notMem_outside_splitOutsideFrom separator false t).1

/-- If the quotes of a text close, so do those of its pieces. -/
theorem closed_splitOutsideFrom {quoted : Bool} {t : Text} (hseparator : separator ≠ '"')
    (h : quotedAfter quoted t = false) :
    quotedAfter quoted (splitOutsideFrom separator quoted t).1 = false ∧
      ∀ piece ∈ (splitOutsideFrom separator quoted t).2, quotedAfter false piece = false := by
  induction t generalizing quoted with
  | nil => exact ⟨h, fun _ hmem => absurd hmem List.not_mem_nil⟩
  | cons c rest ih =>
    rw [splitOutsideFrom]
    split
    · next hsplit =>
      obtain ⟨rfl, rfl⟩ := hsplit
      have hrest : quotedAfter false rest = false := by
        have hcons : quotedAfter (false != (c == '"')) rest = false := h
        rwa [beq_false_of_ne hseparator] at hcons
      obtain ⟨hfirst, hlater⟩ := ih hrest
      refine ⟨rfl, fun piece hpiece => ?_⟩
      rcases List.mem_cons.mp hpiece with rfl | hpiece
      · exact hfirst
      · exact hlater piece hpiece
    · exact ih h

theorem piece_of_mem_splitOutside {t piece : Text} (hseparator : separator ≠ '"')
    (h : quotedAfter false t = false) (hpiece : piece ∈ splitOutside separator t) :
    Piece separator piece := by
  obtain ⟨hfirst, hlater⟩ := notMem_outside_splitOutsideFrom separator false t
  obtain ⟨hfirst', hlater'⟩ := closed_splitOutsideFrom hseparator h
  rcases List.mem_cons.mp hpiece with rfl | hpiece
  · exact ⟨hfirst, hfirst'⟩
  · exact ⟨hlater piece hpiece, hlater' piece hpiece⟩

theorem intercalate_cons (separator : Text) (c : Char) (t : Text) (rest : List Text) :
    separator.intercalate ((c :: t) :: rest) = c :: separator.intercalate (t :: rest) := by
  cases rest with
  | nil => rw [List.intercalate_singleton, List.intercalate_singleton]
  | cons u rest => simp only [List.intercalate_cons_cons, List.cons_append]

@[simp] theorem intercalate_splitOutsideFrom (separator : Char) (quoted : Bool) (t : Text) :
    [separator].intercalate ((splitOutsideFrom separator quoted t).1 ::
      (splitOutsideFrom separator quoted t).2) = t := by
  induction t generalizing quoted with
  | nil => exact List.intercalate_singleton
  | cons c rest ih =>
    rw [splitOutsideFrom]
    split
    · next hsplit =>
      dsimp only
      rw [List.intercalate_cons_cons, ih, hsplit.1]
      rfl
    · dsimp only
      rw [intercalate_cons, ih]

@[simp] theorem intercalate_splitOutside (separator : Char) (t : Text) :
    [separator].intercalate (splitOutside separator t) = t :=
  intercalate_splitOutsideFrom separator false t

theorem beforeOutside_subset (separator : Char) (t : Text) : beforeOutside separator t ⊆ t := by
  have hjoin := intercalate_splitOutsideFrom separator false t
  conv_rhs => rw [← hjoin]
  cases (splitOutsideFrom separator false t).2 with
  | nil =>
    rw [List.intercalate_singleton]
    exact List.Subset.refl _
  | cons piece rest =>
    rw [List.intercalate_cons_cons, List.append_assoc]
    exact List.subset_append_left _ _

/-- Pieces that a text comes apart into.  In the last of them the quotes may stay open. -/
inductive Cut (separator : Char) : List Text → Prop
  | last {t : Text} (hnotMem : separator ∉ outside false t) : Cut separator [t]
  | cons {t : Text} {rest : List Text} (ht : Piece separator t) (hrest : Cut separator rest) :
      Cut separator (t :: rest)

theorem cut_iff {pieces : List Text} :
    Cut separator pieces ↔
      pieces ≠ [] ∧ (∀ piece ∈ pieces.dropLast, quotedAfter false piece = false) ∧
        ∀ piece ∈ pieces, separator ∉ outside false piece := by
  induction pieces with
  | nil => exact ⟨nofun, fun h => absurd rfl h.1⟩
  | cons piece rest ih =>
    cases rest with
    | nil =>
      constructor
      · rintro (hnotMem | ⟨-, ⟨⟩⟩)
        exact ⟨List.cons_ne_nil _ _, List.forall_mem_nil _, List.forall_mem_singleton.mpr hnotMem⟩
      · rintro ⟨-, -, hnotMem⟩
        exact .last (hnotMem piece List.mem_cons_self)
    | cons next rest =>
      rw [List.dropLast_cons_cons, List.forall_mem_cons, List.forall_mem_cons]
      constructor
      · rintro (_ | ⟨hpiece, hrest⟩)
        obtain ⟨-, hclosed, hnotMem⟩ := ih.mp hrest
        exact ⟨List.cons_ne_nil _ _, ⟨hpiece.closed, hclosed⟩, hpiece.notMem, hnotMem⟩
      · rintro ⟨-, ⟨hpiece, hclosed⟩, hpiece', hnotMem⟩
        exact .cons ⟨hpiece', hpiece⟩ (ih.mpr ⟨List.cons_ne_nil _ _, hclosed, hnotMem⟩)

theorem Cut.of_pieces {pieces : List Text} (hne : pieces ≠ [])
    (h : ∀ piece ∈ pieces, Piece separator piece) : Cut separator pieces :=
  cut_iff.mpr ⟨hne, fun piece hpiece => (h piece (List.dropLast_subset pieces hpiece)).closed,
    fun piece hpiece => (h piece hpiece).notMem⟩

/-- Where a text goes on behind a piece, the quotes of the piece close. -/
theorem cut_splitOutsideFrom (hseparator : separator ≠ '"') (quoted : Bool) (t : Text) :
    (splitOutsideFrom separator quoted t).2 = [] ∨
      quotedAfter quoted (splitOutsideFrom separator quoted t).1 = false ∧
        Cut separator (splitOutsideFrom separator quoted t).2 := by
  induction t generalizing quoted with
  | nil => exact .inl rfl
  | cons c rest ih =>
    rw [splitOutsideFrom]
    split
    · next hsplit =>
      obtain ⟨rfl, rfl⟩ := hsplit
      obtain ⟨hnotMem, -⟩ := notMem_outside_splitOutsideFrom c false rest
      refine .inr ⟨rfl, ?_⟩
      rcases ih false with hnil | ⟨hclosed, hcut⟩
      · dsimp only
        rw [hnil]
        exact .last hnotMem
      · exact .cons ⟨hnotMem, hclosed⟩ hcut
    · exact ih (quoted != (c == '"'))

theorem cut_splitOutside (hseparator : separator ≠ '"') (t : Text) :
    Cut separator (splitOutside separator t) := by
  have hnotMem := notMem_outside_beforeOutside separator t
  rw [splitOutside]
  rcases cut_splitOutsideFrom hseparator false t with hnil | ⟨hclosed, hcut⟩
  · rw [hnil]
    exact .last hnotMem
  · exact .cons ⟨hnotMem, hclosed⟩ hcut

theorem splitOutside_intercalate (hseparator : separator ≠ '"') {pieces : List Text}
    (h : Cut separator pieces) :
    splitOutside separator ([separator].intercalate pieces) = pieces := by
  induction h with
  | @last t hnotMem =>
    have happend := splitOutsideFrom_append hseparator hnotMem []
    rw [List.append_nil] at happend
    rw [List.intercalate_singleton, splitOutside, happend]
    exact congrArg (· :: []) (List.append_nil t)
  | @cons t rest ht hrest ih =>
    have hjoin : [separator].intercalate (t :: rest) =
        t ++ separator :: [separator].intercalate rest := by
      cases hrest <;> rw [List.intercalate_cons_cons, List.append_assoc, List.singleton_append]
    rw [splitOutside] at ih
    rw [hjoin, splitOutside, splitOutsideFrom_append hseparator ht.notMem, ht.closed,
      splitOutsideFrom, if_pos ⟨rfl, rfl⟩]
    dsimp only
    rw [ih, List.append_nil]

/-- The pieces make up the text, with a separator between neighbours.  Each of them but the last has
an even number of quotes, and in none of them does a separator have an even number of quotes in
front of it. -/
structure RespectsQuotes (separator : Char) (t : Text) (pieces : List Text) : Prop where
  joined : [separator].intercalate pieces = t
  closed : ∀ piece ∈ pieces.dropLast, piece.count '"' % 2 = 0
  quoted : ∀ piece ∈ pieces, ∀ before after, piece = before ++ separator :: after →
    before.count '"' % 2 = 1

theorem respectsQuotes_iff (hseparator : separator ≠ '"') {t : Text} {pieces : List Text} :
    pieces ≠ [] ∧ RespectsQuotes separator t pieces ↔
      [separator].intercalate pieces = t ∧ Cut separator pieces := by
  simp only [cut_iff, quotedAfter_false_iff, notMem_outside_iff_count hseparator]
  constructor
  · rintro ⟨hne, hjoined, hclosed, hquoted⟩
    exact ⟨hjoined, hne, hclosed, hquoted⟩
  · rintro ⟨hjoined, hne, hclosed, hquoted⟩
    exact ⟨hne, hjoined, hclosed, hquoted⟩

/-- The pieces between the unquoted commas of a text make it up and respect its quotes, and apart
from the empty list no others do. -/
theorem splitOutside_unique (t : Text) (pieces : List Text) :
    pieces ≠ [] ∧ RespectsQuotes ',' t pieces ↔ pieces = splitOutside ',' t := by
  have hcomma : ',' ≠ '"' := by decide
  rw [respectsQuotes_iff hcomma]
  constructor
  · rintro ⟨rfl, hcut⟩
    exact (splitOutside_intercalate hcomma hcut).symm
  · rintro rfl
    exact ⟨intercalate_splitOutside ',' t, cut_splitOutside hcomma t⟩

/-- A comma inside quotes does not divide, and neither does one behind a quote that stays open. -/
example : splitOutside ',' ",\"a,b\",\"c,".toList =
    ["".toList, "\"a,b\"".toList, "\"c,".toList] := by decide

/-- Blanks are part of a piece, as no separator is blank. -/
theorem notMem_outside_of_blank {t : Text} (h : ∀ c ∈ t, isBlank c = true)
    (hblank : isBlank separator = false) (quoted : Bool) : separator ∉ outside quoted t :=
  fun hmem => notMem_of_blank h hblank (outside_subset quoted t hmem)

/-- Blanks behind a text go into its last piece. -/
theorem splitOutsideFrom_append_of_blank {back : Text} (hback : ∀ c ∈ back, isBlank c = true)
    (hseparator : separator ≠ '"') (hblank : isBlank separator = false) (quoted : Bool) (t : Text) :
    List.Forall₂ (fun piece piece' => ∃ blanks : Text, (∀ c ∈ blanks, isBlank c = true) ∧
        piece' = piece ++ blanks)
      ((splitOutsideFrom separator quoted t).1 :: (splitOutsideFrom separator quoted t).2)
      ((splitOutsideFrom separator quoted (t ++ back)).1 ::
        (splitOutsideFrom separator quoted (t ++ back)).2) := by
  induction t generalizing quoted with
  | nil =>
    have hwhole :=
      splitOutsideFrom_append hseparator (notMem_outside_of_blank hback hblank quoted) []
    rw [List.append_nil] at hwhole
    rw [List.nil_append, hwhole]
    exact .cons ⟨back, hback, List.append_nil back⟩ .nil
  | cons c rest ih =>
    rw [List.cons_append, splitOutsideFrom, splitOutsideFrom]
    split
    · exact .cons ⟨[], List.forall_mem_nil _, rfl⟩ (ih quoted)
    · cases ih (quoted != (c == '"')) with
      | cons hfirst hlater =>
        obtain ⟨blanks, hblanks, heq⟩ := hfirst
        exact .cons ⟨blanks, hblanks, congrArg (c :: ·) heq⟩ hlater

/-- Blanks around a text do not count for its pieces, up to blanks around them. -/
theorem map_trim_splitOutside (hseparator : separator ≠ '"') (hblank : isBlank separator = false)
    (t : Text) :
    (splitOutside separator (trim t)).map trim = (splitOutside separator t).map trim := by
  obtain ⟨front, back, hfront, hback, ht⟩ := exists_eq_append_trim t
  have hpieces := splitOutsideFrom_append_of_blank hback hseparator hblank false (trim t)
  have hsplit : splitOutside separator t =
      (front ++ (splitOutsideFrom separator false (trim t ++ back)).1) ::
        (splitOutsideFrom separator false (trim t ++ back)).2 := by
    conv_lhs => rw [ht]
    rw [splitOutside,
      splitOutsideFrom_append hseparator (notMem_outside_of_blank hfront hblank false),
      quotedAfter_of_notMem _ (quote_notMem_of_blank hfront)]
  rw [hsplit, splitOutside, List.map_cons, List.map_cons]
  cases hpieces with
  | cons hfirst hlater =>
    obtain ⟨blanks, hblanks, hfirst⟩ := hfirst
    rw [hfirst, trim_append_of_blank hfront hblanks]
    refine congrArg (_ :: ·) ?_
    rw [← List.forall₂_eq_eq_eq, List.forall₂_map_left_iff, List.forall₂_map_right_iff]
    refine hlater.imp ?_
    rintro piece _ ⟨blanks', hblanks', rfl⟩
    exact (trim_append_of_blank (List.forall_mem_nil _) hblanks' piece).symm

theorem trimmed_intercalate (separator : Text) {pieces : List Text}
    (h : ∀ piece ∈ pieces, Trimmed piece ∧ piece ≠ []) :
    Trimmed (separator.intercalate pieces) ∧ (pieces ≠ [] → separator.intercalate pieces ≠ []) := by
  induction pieces with
  | nil =>
      exact ⟨trimmed_of_no_blank fun _ hc => absurd hc List.not_mem_nil, fun hne => absurd rfl hne⟩
  | cons piece rest ih =>
    obtain ⟨hpiece, hne⟩ := h piece List.mem_cons_self
    obtain ⟨hrest, hrestNe⟩ := ih fun p hp => h p (List.mem_cons_of_mem _ hp)
    cases rest with
    | nil =>
      rw [List.intercalate_singleton]
      exact ⟨hpiece, fun _ => hne⟩
    | cons next rest =>
      rw [List.intercalate_cons_cons, List.append_assoc]
      refine ⟨hpiece.append hrest hne (hrestNe (List.cons_ne_nil _ _)) separator, fun _ hnil => ?_⟩
      exact hne (List.append_eq_nil_iff.mp hnil).1

theorem squeeze_intercalate {separator : Text} (hseparator : '"' ∉ separator)
    {pieces pieces' : List Text}
    (h : List.Forall₂ (fun a b => squeeze false a = squeeze false b ∧ quotedAfter false b = false)
      pieces pieces') :
    squeeze false (separator.intercalate pieces) =
      squeeze false (separator.intercalate pieces') := by
  induction h with
  | nil => rfl
  | @cons a b rest rest' hab hrest ih =>
    have ha : quotedAfter false a = false := by rw [quotedAfter_of_squeeze hab.1, hab.2]
    cases hrest with
    | nil => rw [List.intercalate_singleton, List.intercalate_singleton, hab.1]
    | cons _ _ =>
      rw [List.intercalate_cons_cons, List.intercalate_cons_cons, List.append_assoc,
        List.append_assoc]
      simp only [squeeze_append, quotedAfter_of_notMem _ hseparator, ha, hab.1, hab.2, ih]

theorem intercalate_subset (separator : Text) {pieces pieces' : List Text}
    (h : List.Forall₂ (fun a b => a ⊆ b) pieces pieces') :
    separator.intercalate pieces ⊆ separator.intercalate pieces' := by
  induction h with
  | nil => exact List.Subset.refl _
  | cons hab hrest ih =>
    cases hrest with
    | nil => rwa [List.intercalate_singleton, List.intercalate_singleton]
    | cons _ _ =>
      rw [List.intercalate_cons_cons, List.intercalate_cons_cons]
      intro c hc
      rw [List.mem_append, List.mem_append] at hc ⊢
      exact hc.imp (.imp (@hab c) id) (@ih c)

theorem mem_intercalate (separator : Text) {pieces : List Text} {piece : Text}
    (hpiece : piece ∈ pieces) {c : Char} (hc : c ∈ piece) : c ∈ separator.intercalate pieces := by
  induction pieces with
  | nil => cases hpiece
  | cons first rest ih =>
    cases rest with
    | nil => rwa [List.intercalate_singleton, ← List.mem_singleton.mp hpiece]
    | cons next rest =>
      rw [List.intercalate_cons_cons, List.mem_append, List.mem_append]
      rcases List.mem_cons.mp hpiece with rfl | hpiece
      · exact .inl (.inl hc)
      · exact .inr (ih hpiece)

theorem intercalate_subset_of_forall {separator chars : Text} (hseparator : separator ⊆ chars)
    {pieces : List Text} (h : ∀ piece ∈ pieces, piece ⊆ chars) :
    separator.intercalate pieces ⊆ chars := by
  induction pieces with
  | nil => exact List.nil_subset _
  | cons first rest ih =>
    obtain ⟨hfirst, hrest⟩ := List.forall_mem_cons.mp h
    cases rest with
    | nil => rwa [List.intercalate_singleton]
    | cons next rest =>
      rw [List.intercalate_cons_cons]
      exact List.append_subset_of_subset_of_subset
        (List.append_subset_of_subset_of_subset hfirst hseparator) (ih hrest)

/-- There is a separator between any two pieces. -/
theorem length_le_count_intercalate (separator : Char) (pieces : List Text) :
    pieces.length ≤ ([separator].intercalate pieces).count separator + 1 := by
  induction pieces with
  | nil => exact Nat.zero_le _
  | cons first rest ih =>
    cases rest with
    | nil => simp
    | cons next rest =>
      rw [List.intercalate_cons_cons, List.count_append, List.count_append,
        List.count_singleton_self, List.length_cons]
      omega

/-! ## Quotes at both ends -/

@[simp] theorem unquote?_quoted (t : Text) : unquote? ('"' :: (t ++ ['"'])) = some t := by
  simp [unquote?]

theorem unquote?_of_notMem {t : Text} (h : '"' ∉ t) : unquote? t = none := by
  rw [unquote?.eq_def]
  split
  · exact absurd List.mem_cons_self h
  · rfl

/-! ## Lines -/

/-- A text that can be a line of a source as it is. -/
structure IsLine (t : Text) : Prop where
  feed : '\n' ∉ t
  last : t.getLast? ≠ some '\r'

theorem Trimmed.isLine {t : Text} (h : Trimmed t) (hfeed : '\n' ∉ t) : IsLine t where
  feed := hfeed
  last hlast := absurd (h.last _ hlast) (by decide)

theorem dropReturn_eq_self {t : Text} (h : t.head? ≠ some '\r') : dropReturn t = t := by
  rw [dropReturn.eq_def]
  split
  · exact absurd rfl h
  · rfl

theorem dropReturn_subset (t : Text) : dropReturn t ⊆ t := by
  rw [dropReturn.eq_def]
  split
  · exact List.subset_cons_self _ _
  · exact List.Subset.refl _

theorem linesFrom_append {line rest : Text} (hfeed : '\n' ∉ line) (start : Text) :
    linesFrom start (line ++ '\n' :: rest) =
      (dropReturn (line.reverse ++ start)).reverse :: linesFrom [] rest := by
  induction line generalizing start with
  | nil => rfl
  | cons c line ih =>
    rw [List.mem_cons, not_or] at hfeed
    rw [List.cons_append, linesFrom, if_neg (Ne.symm hfeed.1), ih hfeed.2, List.reverse_cons,
      List.append_assoc, List.singleton_append]

/-- Lines with a line feed after each are read as those lines. -/
theorem lines_flatMap {texts : List Text} (h : ∀ t ∈ texts, IsLine t) :
    lines (texts.flatMap (· ++ ['\n'])) = texts := by
  induction texts with
  | nil => rfl
  | cons t rest ih =>
    obtain ⟨hfeed, hlast⟩ := h t List.mem_cons_self
    have hreturn : dropReturn t.reverse = t.reverse := by
      rw [← List.head?_reverse] at hlast
      exact dropReturn_eq_self hlast
    rw [lines] at ih
    rw [List.flatMap_cons, List.append_assoc, List.singleton_append, lines, linesFrom_append hfeed,
      List.append_nil, hreturn, List.reverse_reverse,
      ih fun t' ht' => h t' (List.mem_cons_of_mem _ ht')]

theorem linesFrom_of_notMem {t : Text} (hfeed : '\n' ∉ t) (start : Text) :
    linesFrom start t = linesFrom (t.reverse ++ start) [] := by
  induction t generalizing start with
  | nil => rfl
  | cons c rest ih =>
    rw [List.mem_cons, not_or] at hfeed
    have hstep : linesFrom start (c :: rest) = linesFrom (c :: start) rest :=
      if_neg (Ne.symm hfeed.1)
    rw [hstep, ih hfeed.2, List.reverse_cons, List.append_assoc, List.singleton_append]

/-- The last line may come without a line feed. -/
theorem lines_of_notMem {t : Text} (hfeed : '\n' ∉ t) (hne : t ≠ []) : lines t = [t] := by
  rw [lines, linesFrom_of_notMem hfeed, List.append_nil, linesFrom, if_neg (by simpa using hne),
    List.reverse_reverse]

/-- A line holds what the text holds. -/
theorem mem_of_mem_linesFrom {start t line : Text} (h : line ∈ linesFrom start t) {c : Char}
    (hc : c ∈ line) : c ∈ start ∨ c ∈ t := by
  induction t generalizing start with
  | nil =>
    rw [linesFrom] at h
    split at h
    · cases h
    · rw [List.mem_singleton] at h
      rw [h, List.mem_reverse] at hc
      exact .inl hc
  | cons d rest ih =>
    rw [linesFrom] at h
    split at h
    · rcases List.mem_cons.mp h with rfl | h
      · rw [List.mem_reverse] at hc
        exact .inl (dropReturn_subset _ hc)
      · exact .inr (List.mem_cons_of_mem _ ((ih h).resolve_left List.not_mem_nil))
    · rcases ih h with hmem | hmem
      · rcases List.mem_cons.mp hmem with rfl | hmem
        · exact .inr List.mem_cons_self
        · exact .inl hmem
      · exact .inr (List.mem_cons_of_mem _ hmem)

theorem mem_of_mem_lines {t line : Text} (h : line ∈ lines t) {c : Char} (hc : c ∈ line) : c ∈ t :=
  (mem_of_mem_linesFrom h hc).resolve_left List.not_mem_nil

theorem feed_notMem_of_mem_linesFrom {start t line : Text} (hstart : '\n' ∉ start)
    (h : line ∈ linesFrom start t) : '\n' ∉ line := by
  induction t generalizing start with
  | nil =>
    rw [linesFrom] at h
    split at h
    · cases h
    · rw [List.mem_singleton] at h
      rw [h, List.mem_reverse]
      exact hstart
  | cons c rest ih =>
    rw [linesFrom] at h
    split at h
    · rcases List.mem_cons.mp h with rfl | h
      · rw [List.mem_reverse]
        exact fun hmem => hstart (dropReturn_subset _ hmem)
      · exact ih List.not_mem_nil h
    · next hc =>
      refine ih ?_ h
      rw [List.mem_cons, not_or]
      exact ⟨Ne.symm hc, hstart⟩

theorem feed_notMem_of_mem_lines {t line : Text} (h : line ∈ lines t) : '\n' ∉ line :=
  feed_notMem_of_mem_linesFrom List.not_mem_nil h

end Z80.Text
