import Z80.Line
import Z80.Proofs.Printed
import Z80.Proofs.Statement

/-!
# Settled lines

A line is settled if it reads without change: it has no comment, no blanks around it, no variable,
and its letters are folded.  What is left of a source line after these steps is settled, and so is
the canonical line of a label, of an origin or of a statement that was read from a settled line;
each of them says what the first line said.
-/

namespace Z80

open Text (Trimmed trim quotedAfter outside squeeze isBlank)

/-! ## Letter case outside quotes -/

namespace Text

/-- The text in lower case outside its quotes. -/
def lowerOutside (quoted : Bool) : Text → Text
  | [] => []
  | c :: rest => (if quoted then c else c.toLower) :: lowerOutside (quoted != (c == '"')) rest

@[simp] theorem lowerOutside_append (quoted : Bool) (a b : Text) :
    lowerOutside quoted (a ++ b) =
      lowerOutside quoted a ++ lowerOutside (quotedAfter quoted a) b :=
  append_of_scan (g := fun q c => [if q then c else c.toLower]) (fun _ => rfl) (fun _ _ _ => rfl)
    quoted a b

theorem lowerOutside_of_notMem {t : Text} (h : '"' ∉ t) : lowerOutside false t = lower t := by
  induction t with
  | nil => rfl
  | cons c rest ih =>
    rw [List.mem_cons, not_or] at h
    rw [lowerOutside, beq_false_of_ne (Ne.symm h.1)]
    exact congrArg (c.toLower :: ·) (ih h.2)

theorem lowerOutside_quoted {t : Text} (h : '"' ∉ t) : lowerOutside true t = t := by
  induction t with
  | nil => rfl
  | cons c rest ih =>
    rw [List.mem_cons, not_or] at h
    rw [lowerOutside, beq_false_of_ne (Ne.symm h.1)]
    exact congrArg (c :: ·) (ih h.2)

@[simp] theorem folded_eq_quote {quoted : Bool} {c : Char} :
    ((if quoted then c else c.toLower) == '"') = (c == '"') := by
  rw [Bool.eq_iff_iff, beq_iff_eq, beq_iff_eq]
  cases quoted with
  | true => exact Iff.rfl
  | false => exact toLower_eq_quote

@[simp] theorem outside_lowerOutside (quoted : Bool) (t : Text) :
    outside quoted (lowerOutside quoted t) = (outside quoted t).map Char.toLower := by
  induction t generalizing quoted with
  | nil => rfl
  | cons c rest ih =>
    rw [lowerOutside, outside, outside, folded_eq_quote, ih]
    split
    · rfl
    · next hout =>
      rw [Bool.or_eq_true, not_or] at hout
      rw [if_neg hout.1, List.map_cons]

theorem toLower_of_mem_outside {quoted : Bool} {t : Text} {c : Char}
    (h : c ∈ outside quoted (lowerOutside quoted t)) : c.toLower = c := by
  rw [outside_lowerOutside] at h
  obtain ⟨d, -, rfl⟩ := List.mem_map.mp h
  exact toLower_toLower d

@[simp] theorem count_lowerOutside (quoted : Bool) (t : Text) :
    (lowerOutside quoted t).count '"' = t.count '"' := by
  induction t generalizing quoted with
  | nil => rfl
  | cons c rest ih => rw [lowerOutside, List.count_cons, List.count_cons, folded_eq_quote, ih]

@[simp] theorem lower_lowerOutside (quoted : Bool) (t : Text) :
    lower (lowerOutside quoted t) = lower t := by
  induction t generalizing quoted with
  | nil => rfl
  | cons c rest ih =>
    have hc : (if quoted then c else c.toLower).toLower = c.toLower := by
      split
      · rfl
      · exact toLower_toLower c
    change (if quoted then c else c.toLower).toLower :: lower (lowerOutside _ rest) =
      c.toLower :: lower rest
    rw [hc, ih]

/-- Folding does not change what is blank. -/
theorem Trimmed.of_lower {t u : Text} (h : Trimmed t) (hlower : lower u = lower t) : Trimmed u := by
  have hmap : ∀ v : Text, (lower v).head? = v.head?.map Char.toLower ∧
      (lower v).getLast? = v.getLast?.map Char.toLower := fun v =>
    ⟨List.head?_map, List.getLast?_map⟩
  constructor
  · intro c hc
    have hhead := (hmap u).1
    rw [hlower, (hmap t).1, hc] at hhead
    obtain ⟨d, hd, hdc⟩ := Option.map_eq_some_iff.mp hhead
    rw [← isBlank_toLower, ← hdc, isBlank_toLower, h.head d hd]
  · intro c hc
    have hlast := (hmap u).2
    rw [hlower, (hmap t).2, hc] at hlast
    obtain ⟨d, hd, hdc⟩ := Option.map_eq_some_iff.mp hlast
    rw [← isBlank_toLower, ← hdc, isBlank_toLower, h.last d hd]

/-- Letter case does not count for a keyword. -/
theorem afterKeyword?_of_lower {keyword t u : Text} (hlower : lower u = lower t) :
    (afterKeyword? keyword u).isSome = (afterKeyword? keyword t).isSome := by
  have hcondition : ∀ v : Text, (afterKeyword? keyword v).isSome =
      decide ((lower v).take keyword.length = keyword ∧
        ((lower v).drop keyword.length).head?.all isBlank) := by
    intro v
    rw [lower, ← List.map_take, ← List.map_drop, List.head?_map, Option.all_map, afterKeyword?]
    simp only [isBlank_toLower]
    split
    · next h => exact (decide_eq_true h).symm
    · next h => exact (decide_eq_false h).symm
  rw [hcondition, hcondition, hlower]

theorem afterKeyword?_eq_none_of_lower {keyword t u : Text} (hlower : lower u = lower t)
    (h : afterKeyword? keyword t = none) : afterKeyword? keyword u = none := by
  rw [← Option.isNone_iff_eq_none, ← Option.not_isSome, afterKeyword?_of_lower hlower, h]
  rfl

/-- A character that is no letter stands where it stood. -/
theorem mem_of_lower {t u : Text} {c : Char} (hlower : lower u = lower t)
    (hc : ∀ d : Char, d.toLower = c ↔ d = c) (h : c ∈ u) : c ∈ t := by
  have hfolded : c.toLower ∈ lower u := List.mem_map_of_mem h
  rw [hlower] at hfolded
  obtain ⟨d, hd, hdc⟩ := List.mem_map.mp hfolded
  rw [(hc c).mpr rfl, hc] at hdc
  exact hdc ▸ hd

theorem afterKeyword?_eq_some {keyword t rest : Text} (h : afterKeyword? keyword t = some rest) :
    ∃ word, t = word ++ rest ∧ lower word = keyword ∧ ∀ c ∈ rest.head?, isBlank c = true := by
  rw [afterKeyword?] at h
  split at h
  · next hword =>
    cases h
    refine ⟨t.take keyword.length, (List.take_append_drop _ _).symm, hword.1, fun c hc => ?_⟩
    have hall := hword.2
    rw [hc] at hall
    exact hall
  · cases h

theorem lowerOutside_eq_self {quoted : Bool} {t : Text}
    (h : ∀ c ∈ outside quoted t, c.toLower = c) :
    lowerOutside quoted t = t := by
  induction t generalizing quoted with
  | nil => rfl
  | cons c rest ih =>
    rw [outside] at h
    rw [lowerOutside]
    split at h
    · next hout =>
      rw [ih h]
      cases quoted with
      | true => rfl
      | false =>
        have hc : c = '"' := by simpa using hout
        rw [hc]
        rfl
    · next hout =>
      rw [Bool.or_eq_true, not_or] at hout
      rw [if_neg hout.1, h c List.mem_cons_self, ih fun d hd => h d (List.mem_cons_of_mem _ hd)]

end Text

/-! ## Folding -/

namespace Line

variable {t u : Text}

theorem no_blank_defm : ∀ c ∈ "defm".toList, isBlank c = false := Text.no_blank_of_all (by decide)

theorem no_blank_org : ∀ c ∈ "org".toList, isBlank c = false := Text.no_blank_of_all (by decide)

theorem dropWhile_quote_of_notMem (h : '"' ∉ t) : t.dropWhile (· != '"') = [] := by
  rw [List.dropWhile_eq_nil_iff]
  intro c hc
  rw [bne_iff_ne]
  rintro rfl
  exact h hc

theorem dropWhile_quote {before after : Text} (h : '"' ∉ before) :
    (before ++ '"' :: after).takeWhile (· != '"') = before ∧
      (before ++ '"' :: after).dropWhile (· != '"') = '"' :: after := by
  refine Text.takeWhile_append_stop (fun c hc => ?_) fun c hc => ?_
  · rw [bne_iff_ne]
    rintro rfl
    exact h hc
  · cases hc
    rfl

theorem count_quote {before after : Text} (h : '"' ∉ before) :
    (before ++ '"' :: after).count '"' = after.count '"' + 1 := by
  rw [List.count_append, List.count_eq_zero_of_not_mem h, List.count_cons_self, Nat.zero_add]

theorem lowerOutside_quoted_part {before inside after : Text} (hbefore : '"' ∉ before)
    (hinside : '"' ∉ inside) (hafter : '"' ∉ after) :
    Text.lowerOutside false (before ++ '"' :: (inside ++ '"' :: after)) =
      Text.lower before ++ '"' :: inside ++ '"' :: Text.lower after := by
  have hquote : Text.lowerOutside false ('"' :: (inside ++ '"' :: after)) =
      '"' :: Text.lowerOutside true (inside ++ '"' :: after) := rfl
  have hclose : Text.lowerOutside true ('"' :: after) = '"' :: Text.lowerOutside false after := rfl
  rw [Text.lowerOutside_append, Text.quotedAfter_of_notMem _ hbefore, hquote,
    Text.lowerOutside_append, Text.quotedAfter_of_notMem _ hinside, hclose,
    Text.lowerOutside_of_notMem hbefore, Text.lowerOutside_quoted hinside,
    Text.lowerOutside_of_notMem hafter, List.append_assoc, List.cons_append]

/-- A line is folded by the number of its quotes. -/
theorem foldCase_eq (hkeyword : Text.afterKeyword? "defm".toList t = none) :
    foldCase t =
      if t.count '"' = 0 ∨ t.count '"' = 2 then .ok (Text.lowerOutside false t)
      else if t.count '"' = 1 then .error .unterminatedQuote
      else .error .multipleQuotes := by
  rw [foldCase, hkeyword]
  by_cases h : '"' ∈ t
  · obtain ⟨before, rest, rfl, hbefore⟩ := List.eq_append_cons_of_mem h
    rw [(dropWhile_quote hbefore).1, (dropWhile_quote hbefore).2, count_quote hbefore]
    by_cases hrest : '"' ∈ rest
    · obtain ⟨inside, after, rfl, hinside⟩ := List.eq_append_cons_of_mem hrest
      dsimp only
      rw [(dropWhile_quote hinside).1, (dropWhile_quote hinside).2, count_quote hinside]
      dsimp only
      split
      · next hafter =>
        have hpos := List.count_pos_iff.mpr hafter
        rw [if_neg (by omega), if_neg (by omega)]
      · next hafter =>
        rw [lowerOutside_quoted_part hbefore hinside hafter, List.count_eq_zero_of_not_mem hafter,
          if_pos (.inr rfl)]
    · dsimp only
      rw [dropWhile_quote_of_notMem hrest, List.count_eq_zero_of_not_mem hrest, if_neg (by decide),
        if_pos rfl]
  · rw [dropWhile_quote_of_notMem h, List.count_eq_zero_of_not_mem h, Text.lowerOutside_of_notMem h,
      if_pos (.inl rfl)]

/-- A line may be folded if it has one quoted part or none. -/
theorem foldCase_eq_ok (hkeyword : Text.afterKeyword? "defm".toList t = none) :
    foldCase t = .ok u ↔ (t.count '"' = 0 ∨ t.count '"' = 2) ∧ u = Text.lowerOutside false t := by
  rw [foldCase_eq hkeyword]
  split
  · next hcount => rw [Except.ok.injEq, and_iff_right hcount, eq_comm]
  · next hcount =>
    refine ⟨fun h => ?_, fun h => absurd h.1 hcount⟩
    split at h <;> cases h

/-- A line is folded already if it has one quoted part or none and is in lower case outside of
it. -/
theorem foldCase_eq_self (hkeyword : Text.afterKeyword? "defm".toList t = none) :
    foldCase t = .ok t ↔
      (t.count '"' = 0 ∨ t.count '"' = 2) ∧ ∀ c ∈ outside false t, c.toLower = c := by
  rw [foldCase_eq_ok hkeyword]
  refine and_congr_right fun _ => ⟨fun h c hc => ?_, fun h => (Text.lowerOutside_eq_self h).symm⟩
  rw [h] at hc
  exact Text.toLower_of_mem_outside hc

/-! ## Settled lines -/

structure Settled (t : Text) : Prop where
  trimmed : Trimmed t
  ne_nil : t ≠ []
  comment : ';' ∉ outside false t
  dollar : t.head? ≠ some '$'
  folded : foldCase t = .ok t

@[simp] theorem substitute_empty (t : Text) : Variables.substitute .empty t = t := by
  rw [Variables.substitute]
  induction t with
  | nil => rfl
  | cons c rest ih =>
    rw [Variables.substituteFrom]
    split
    · exact congrArg (c :: ·) ih
    · rw [ih]

/-- Variables start with a dollar sign, so what has none stays as it is. -/
theorem substitute_append (vars : Variables) {front : Text} (h : '$' ∉ front) (t : Text) :
    vars.substitute (front ++ t) = front ++ vars.substitute t := by
  induction front with
  | nil => rfl
  | cons c rest ih =>
    rw [List.mem_cons, not_or] at h
    rw [Variables.substitute, List.cons_append, Variables.substituteFrom, if_neg (Ne.symm h.1)]
    exact congrArg (c :: ·) (ih h.2)

theorem substitute_of_notMem (vars : Variables) (h : '$' ∉ t) : vars.substitute t = t := by
  have happend := substitute_append vars h []
  rw [List.append_nil] at happend
  rw [happend]
  exact List.append_nil t

/-- What is left of a line that defines no variable, before its letters are folded. -/
theorem read_eq_substitute {vars : Variables} {raw : Text} (hne : trim (stripComment raw) ≠ [])
    (hdollar : (trim (stripComment raw)).head? ≠ some '$') :
    read vars raw = foldCase (trim (vars.substitute (trim (stripComment raw)))) >>= ofFolded := by
  rw [read.eq_def]
  dsimp only
  split
  · next hnil => exact absurd hnil hne
  · next rest hcons => exact absurd (by rw [hcons]; rfl) hdollar
  · cases foldCase (trim (vars.substitute (trim (stripComment raw)))) <;> rfl

theorem read_eq_foldCase {raw : Text} (hne : trim (stripComment raw) ≠ [])
    (hdollar : (trim (stripComment raw)).head? ≠ some '$') :
    read .empty raw = foldCase (trim (stripComment raw)) >>= ofFolded := by
  rw [read_eq_substitute hne hdollar, substitute_empty, Text.trim_trim]

theorem trim_stripComment_eq_self (htrimmed : Trimmed t) (hcomment : ';' ∉ outside false t) :
    trim (stripComment t) = t := by
  rw [stripComment, Text.beforeOutside_eq_self (by decide) hcomment, Text.trim_eq_self htrimmed]

/-- A line without a comment, a variable, or blanks around it is only folded. -/
theorem read_eq_foldCase_self (vars : Variables) (htrimmed : Trimmed t) (hne : t ≠ [])
    (hcomment : ';' ∉ outside false t) (hdollar : '$' ∉ t) :
    Line.read vars t = foldCase t >>= ofFolded := by
  have hstrip := trim_stripComment_eq_self htrimmed hcomment
  have hhead : t.head? ≠ some '$' := fun hhead => hdollar (List.mem_of_mem_head? hhead)
  rw [read_eq_substitute (by rwa [hstrip]) (by rwa [hstrip]), hstrip,
    substitute_of_notMem vars hdollar, Text.trim_eq_self htrimmed]

theorem Settled.read (h : Settled t) : Line.read .empty t = ofFolded t := by
  have hstrip := trim_stripComment_eq_self h.trimmed h.comment
  rw [read_eq_foldCase (by rw [hstrip]; exact h.ne_nil) (by rw [hstrip]; exact h.dollar),
    hstrip, h.folded]
  rfl

theorem lower_of_foldCase (h : foldCase t = .ok u) : Text.lower u = Text.lower t := by
  cases hkeyword : Text.afterKeyword? "defm".toList t with
  | none =>
    obtain ⟨-, rfl⟩ := (foldCase_eq_ok hkeyword).mp h
    exact Text.lower_lowerOutside false t
  | some rest =>
    rw [foldCase, hkeyword] at h
    cases h
    obtain ⟨word, rfl, hword, -⟩ := Text.afterKeyword?_eq_some hkeyword
    rw [Text.lower, Text.lower, List.map_append, List.map_append]
    exact congrArg (· ++ _) hword.symm

/-- After `defm` the letters do not count. -/
theorem foldCase_message {rest : Text} (hblank : ∀ c ∈ rest.head?, isBlank c = true) :
    foldCase ("defm".toList ++ rest) = .ok ("defm".toList ++ rest) := by
  rw [foldCase, Text.afterKeyword?_append no_blank_defm no_blank_defm hblank, if_pos (by decide)]

/-- What is folded stays as it is. -/
theorem foldCase_foldCase (h : foldCase t = .ok u) : foldCase u = .ok u := by
  have hlower := lower_of_foldCase h
  cases hkeyword : Text.afterKeyword? "defm".toList t with
  | none =>
    -- folding brings no keyword in front
    have hkeyword' := Text.afterKeyword?_eq_none_of_lower hlower hkeyword
    obtain ⟨hcount, rfl⟩ := (foldCase_eq_ok hkeyword).mp h
    rw [foldCase_eq_self hkeyword', Text.count_lowerOutside]
    exact ⟨hcount, fun d hd => Text.toLower_of_mem_outside hd⟩
  | some rest =>
    rw [foldCase, hkeyword] at h
    cases h
    obtain ⟨-, -, -, hblank⟩ := Text.afterKeyword?_eq_some hkeyword
    exact foldCase_message hblank

theorem settled_message {rest : Text} (hblank : ∀ c ∈ rest.head?, isBlank c = true)
    (htrimmed : Trimmed ("defm".toList ++ rest)) (hcomment : ';' ∉ outside false rest) :
    Settled ("defm".toList ++ rest) where
  trimmed := htrimmed
  ne_nil := List.cons_ne_nil _ _
  comment := by
    rw [Text.outside_append, Text.quotedAfter_of_notMem _ (by decide), List.mem_append, not_or]
    exact ⟨by decide, hcomment⟩
  dollar hhead := absurd hhead (by simp)
  folded := foldCase_message hblank

/-- What folding leaves is settled. -/
theorem settled_of_foldCase (htrimmed : Trimmed t) (hne : t ≠ []) (hcomment : ';' ∉ outside false t)
    (hdollar : t.head? ≠ some '$') (h : foldCase t = .ok u) : Settled u := by
  have htrimmed' := htrimmed.of_lower (lower_of_foldCase h)
  have hfolded := foldCase_foldCase h
  cases hkeyword : Text.afterKeyword? "defm".toList t with
  | none =>
    obtain ⟨-, rfl⟩ := (foldCase_eq_ok hkeyword).mp h
    obtain ⟨c, rest, rfl⟩ := List.exists_cons_of_ne_nil hne
    refine ⟨htrimmed', List.cons_ne_nil _ _, ?_, ?_, hfolded⟩
    · rw [Text.outside_lowerOutside, List.mem_map]
      rintro ⟨d, hd, hsemicolon⟩
      rw [Text.toLower_eq_iff (by decide) (by decide)] at hsemicolon
      exact hcomment (hsemicolon ▸ hd)
    · intro hhead
      refine hdollar (congrArg some ?_)
      exact (Text.toLower_eq_iff (by decide) (by decide)).mp (Option.some.inj hhead)
  | some rest =>
    rw [foldCase, hkeyword] at h
    cases h
    obtain ⟨word, rfl, hword, hblank⟩ := Text.afterKeyword?_eq_some hkeyword
    have hquote : '"' ∉ word := fun hmem =>
      absurd (hword ▸ List.mem_map_of_mem hmem : Char.toLower '"' ∈ "defm".toList) (by decide)
    rw [Text.outside_append, Text.quotedAfter_of_notMem _ hquote, List.mem_append, not_or]
      at hcomment
    exact settled_message hblank htrimmed' hcomment.2

/-- A line that says something, and defines no variable, leaves a settled line that says it. -/
theorem exists_settled {raw : Text} {line : Line} (h : Line.read .empty raw = .ok line)
    (hdollar : (trim (stripComment raw)).head? ≠ some '$') (hblank : line ≠ .blank) :
    ∃ t, Settled t ∧ ofFolded t = .ok line ∧ ('\n' ∉ raw → '\n' ∉ t) := by
  have hne : trim (stripComment raw) ≠ [] := by
    intro hnil
    rw [Line.read, hnil] at h
    cases h
    exact hblank rfl
  rw [read_eq_foldCase hne hdollar] at h
  obtain ⟨t, hfold, hline⟩ := bind_eq_ok.mp h
  have hcomment : ';' ∉ outside false (trim (stripComment raw)) := fun hmem =>
    Text.notMem_outside_beforeOutside ';' raw (Text.outside_trim_subset _ hmem)
  refine ⟨t, settled_of_foldCase (Text.trimmed_trim _) hne hcomment hdollar hfold, hline, ?_⟩
  intro hfeed hmem
  have hraw := Text.mem_of_lower (lower_of_foldCase hfold)
    (fun d => Text.toLower_eq_iff (by decide) (by decide)) hmem
  exact hfeed (Text.beforeOutside_subset ';' raw (Text.mem_of_mem_trim hraw))

theorem Settled.closed (h : Settled t) (hkeyword : Text.afterKeyword? "defm".toList t = none) :
    quotedAfter false t = false := by
  obtain ⟨hcount, -⟩ := (foldCase_eq_ok hkeyword).mp h.folded
  rw [Text.quotedAfter_eq_count]
  rcases hcount with hcount | hcount
  · rw [hcount]
    rfl
  · rw [hcount]
    rfl

/-- Blanks outside quotes do not count for what is settled, but for those at the ends. -/
theorem Settled.of_squeeze (h : Settled t) (hkeyword : Text.afterKeyword? "defm".toList t = none)
    (hkeyword' : Text.afterKeyword? "defm".toList u = none) (htrimmed : Trimmed u)
    (hhead : u.head? = t.head?) (hsqueeze : squeeze false u = squeeze false t) : Settled u := by
  obtain ⟨hcount, hfolded⟩ := (foldCase_eq_self hkeyword).mp h.folded
  refine ⟨htrimmed, ?_, ?_, by rw [hhead]; exact h.dollar,
    (foldCase_eq_self hkeyword').mpr ⟨?_, ?_⟩⟩
  · rintro rfl
    exact h.ne_nil (List.head?_eq_none_iff.mp hhead.symm)
  · exact fun hmem => h.comment (Text.mem_outside_of_squeeze hsqueeze hmem (by decide))
  · rwa [← Text.count_squeeze false, hsqueeze, Text.count_squeeze]
  · intro c hc
    cases hblank : isBlank c with
    | true => exact Text.toLower_of_isBlank hblank
    | false => exact hfolded c (Text.mem_outside_of_squeeze hsqueeze hc hblank)

/-! ## What a settled line says -/

/-- How a folded line comes to say something. -/
inductive Means : Text → Line → Prop
  | label (rest : Text) (hne : trim rest ≠ []) : Means (':' :: rest) (.label (trim rest))
  | origin {t rest : Text} {address : Address} (hcolon : t.head? ≠ some ':')
      (hkeyword : Text.afterKeyword? "org".toList t = some rest)
      (horigin : readOrigin t rest = .ok (.origin address)) : Means t (.origin address)
  | statement {t : Text} (hcolon : t.head? ≠ some ':')
      (hkeyword : Text.afterKeyword? "org".toList t = none) : Means t (.statement t)

theorem readOrigin_eq_ok {rest : Text} {line : Line} (h : readOrigin t rest = .ok line) :
    ∃ address, line = .origin address := by
  rw [readOrigin] at h
  split at h
  · cases h
  · split at h
    · cases h
    · split at h
      · cases h
        exact ⟨_, rfl⟩
      · cases h

theorem ofFolded_eq_ok {line : Line} : ofFolded t = .ok line ↔ Means t line := by
  constructor
  · intro h
    rw [ofFolded.eq_def] at h
    split at h
    · next rest =>
      dsimp only at h
      split at h
      · cases h
      · next hne =>
        cases h
        exact .label rest fun hnil => hne (List.isEmpty_iff.mpr hnil)
    · next hother =>
      have hcolon : t.head? ≠ some ':' := by
        intro hhead
        obtain ⟨rest, rfl⟩ := List.head?_eq_some_iff.mp hhead
        exact hother rest rfl
      split at h
      · next rest hkeyword =>
        obtain ⟨address, rfl⟩ := readOrigin_eq_ok h
        exact .origin hcolon hkeyword h
      · next hkeyword =>
        cases h
        exact .statement hcolon hkeyword
  · intro h
    cases h with
    | label rest hne =>
      exact if_neg fun hempty => hne (List.isEmpty_iff.mp hempty)
    | origin hcolon hkeyword horigin =>
      rw [ofFolded.eq_def]
      split
      · exact absurd rfl hcolon
      · rw [hkeyword]
        exact horigin
    | statement hcolon hkeyword =>
      rw [ofFolded.eq_def]
      split
      · exact absurd rfl hcolon
      · rw [hkeyword]

theorem afterKeyword?_cons {keyword rest : Text} {c d : Char} (h : c.toLower ≠ d) :
    Text.afterKeyword? (d :: keyword) (c :: rest) = none := by
  refine if_neg fun hword => h ?_
  exact (List.cons.inj hword.1).1

/-- The canonical line of a label is settled and says the label. -/
theorem Settled.label (h : Settled t) {name : Text} (hmeans : Means t (.label name)) :
    Settled (':' :: name) ∧ Means (':' :: name) (.label name) ∧ name ⊆ t := by
  cases hmeans with
  | label rest hne =>
    have hnone : ∀ rest : Text, Text.afterKeyword? "defm".toList (':' :: rest) = none := fun rest =>
      afterKeyword?_cons (by decide)
    have hclosed : quotedAfter false rest = false := h.closed (hnone rest)
    have htrimmed : Trimmed (':' :: trim rest) :=
      (Text.trimmed_singleton (c := ':') rfl).append (Text.trimmed_trim rest)
        (List.cons_ne_nil _ _) hne []
    refine ⟨h.of_squeeze (hnone _) (hnone _) htrimmed rfl ?_, ?_, fun c hc => ?_⟩
    · exact congrArg (':' :: ·) (Text.squeeze_trim hclosed)
    · have hlabel := Means.label (trim rest)
      rw [Text.trim_trim] at hlabel
      exact hlabel hne
    · exact List.mem_cons_of_mem _ (Text.mem_of_mem_trim hc)

section Statement

variable {v : Vocabulary} {s : Statement}

/-- A settled line that is read as a statement starts with its mnemonic, as the canonical text
does. -/
theorem Settled.exists_rest (h : Settled t) (hs : Statement.read v t = .ok s) :
    ∃ rest, t = s.mnemonic ++ rest ∧ (∀ c ∈ s.mnemonic, isBlank c = false) ∧
      (∀ c ∈ rest.head?, isBlank c = true) ∧
      Statement.Lists v s.mnemonic (trim rest) s.operands := by
  have hrest := Statement.exists_of_read hs
  rwa [Text.trim_eq_self h.trimmed] at hrest

theorem Settled.head?_text (h : Settled t) (hs : Statement.read v t = .ok s) :
    s.text.head? = t.head? := by
  obtain ⟨rest, ht, -, hblank, -⟩ := h.exists_rest hs
  obtain ⟨rest', htext, -⟩ := s.exists_text_eq_append
  cases hmnemonic : s.mnemonic with
  | nil =>
    rw [hmnemonic, List.nil_append] at ht
    obtain ⟨c, rest, rfl⟩ := List.exists_cons_of_ne_nil (ht ▸ h.ne_nil)
    have hhead : isBlank c = false := h.trimmed.head c (by rw [ht]; rfl)
    rw [hblank c rfl] at hhead
    cases hhead
  | cons c mnemonic =>
    rw [hmnemonic] at ht htext
    rw [ht, htext]
    rfl

theorem Settled.afterKeyword?_text (h : Settled t) (hs : Statement.read v t = .ok s)
    {keyword : Text} (hkeyword : ∀ c ∈ keyword, isBlank c = false)
    (hnone : Text.afterKeyword? keyword t = none) :
    Text.afterKeyword? keyword s.text = none := by
  obtain ⟨rest, ht, hword, hblank, -⟩ := h.exists_rest hs
  obtain ⟨rest', htext, hblank'⟩ := s.exists_text_eq_append
  rw [ht, Text.afterKeyword?_append hkeyword hword hblank] at hnone
  rw [htext, Text.afterKeyword?_append hkeyword hword hblank']
  split at hnone
  · cases hnone
  · next hother => rw [if_neg hother]

/-- The canonical text of a `defm` statement is settled. -/
theorem Settled.message (h : Settled t) (hs : Statement.read v t = .ok s)
    (hmnemonic : s.mnemonic = "defm".toList) : Settled s.text := by
  obtain ⟨rest, ht, -, -, hlists⟩ := h.exists_rest hs
  have htrimmed := Statement.trimmed_text hs
  have hcomment := h.comment
  rw [hmnemonic] at ht
  rw [ht, Text.outside_append, Text.quotedAfter_of_notMem _ (by decide), List.mem_append, not_or]
    at hcomment
  rw [Statement.text_eq, hmnemonic, hlists.listText_message hmnemonic] at htrimmed ⊢
  split at htrimmed
  · next hoperands =>
    rw [if_pos hoperands]
    exact settled_message Text.isBlank_head?_nil htrimmed List.not_mem_nil
  · next hoperands =>
    rw [if_neg hoperands]
    refine settled_message (Text.isBlank_head?_space _) htrimmed fun hmem => ?_
    rcases List.mem_cons.mp hmem with heq | hmem
    · exact absurd heq (by decide)
    · exact hcomment.2 (Text.outside_trim_subset _ hmem)

/-- The canonical text of a statement is settled and says the statement. -/
theorem Settled.statement (h : Settled t) (hmeans : Means t (.statement t))
    (hs : Statement.read v t = .ok s) (hmnemonic : '"' ∉ s.mnemonic) :
    Settled s.text ∧ Means s.text (.statement s.text) ∧ Statement.read v s.text = .ok s := by
  obtain ⟨rest, ht, hword, hblank, -⟩ := h.exists_rest hs
  have hmeans' : Means s.text (.statement s.text) := by
    cases hmeans with
    | statement hcolon horigin =>
      refine .statement ?_ (h.afterKeyword?_text hs no_blank_org horigin)
      rwa [h.head?_text hs]
  by_cases hmessage : s.mnemonic = "defm".toList
  · exact ⟨h.message hs hmessage, hmeans', Statement.read_text hs⟩
  · have hkeyword : Text.afterKeyword? "defm".toList t = none := by
      cases hkeyword : Text.afterKeyword? "defm".toList t with
      | none => rfl
      | some rest' =>
        -- a folded line that has the keyword has it as its first word, the mnemonic
        have hfolded := h.folded
        rw [foldCase, hkeyword] at hfolded
        obtain ⟨-, -, -, hblank'⟩ := Text.afterKeyword?_eq_some hkeyword
        have hfirst := (Text.takeWhile_word no_blank_defm hblank').1
        rw [Except.ok.inj hfolded, ht, (Text.takeWhile_word hword hblank).1] at hfirst
        exact absurd hfirst hmessage
    have hclosed := h.closed hkeyword
    refine ⟨?_, hmeans', Statement.read_text hs⟩
    exact h.of_squeeze hkeyword (h.afterKeyword?_text hs no_blank_defm hkeyword)
      (Statement.trimmed_text hs) (h.head?_text hs) (Statement.squeeze_text hs hmnemonic hclosed)

end Statement

/-! ## Origins -/

/-- The canonical line of an origin. -/
def originText (address : Address) : Text := "org ".toList ++ Numeral.decimal address.toNat

theorem toLower_of_mem_decimal {n : Nat} {c : Char} (h : c ∈ Numeral.decimal n) :
    c.toLower = c := by
  have hdigit : c.toNat ≤ 57 := (Char.isDigit_iff_toNat.mp (Numeral.isDigit_of_mem_decimal h)).2
  rcases Text.toLower_cases c with hc | ⟨hletter, -⟩
  · exact hc
  · omega

theorem settled_originText (address : Address) : Settled (originText address) := by
  have hnotMem : ∀ c : Char, c ∉ "org ".toList → c.isDigit = false → c ∉ originText address := by
    intro c horigin hdigit hmem
    rcases List.mem_append.mp hmem with hmem | hmem
    · exact horigin hmem
    · exact Numeral.notMem_decimal hdigit hmem
  have hquote : '"' ∉ originText address := hnotMem _ (by decide) rfl
  have hkeyword : Text.afterKeyword? "defm".toList (originText address) = none :=
    afterKeyword?_cons (by decide)
  have hword : Trimmed "org".toList := Text.trimmed_of_no_blank no_blank_org
  have hnumber : Trimmed (Numeral.decimal address.toNat) :=
    Text.trimmed_of_no_blank fun c hc => Numeral.isBlank_of_mem_decimal hc
  refine ⟨hword.append hnumber (by decide) Nat.toDigits_ne_nil [' '],
    List.cons_ne_nil _ _, ?_, ?_, ?_⟩
  · rw [Text.outside_of_notMem hquote]
    exact hnotMem _ (by decide) rfl
  · exact fun hhead => absurd hhead (by simp [originText])
  · rw [foldCase_eq_self hkeyword, Text.outside_of_notMem hquote]
    refine ⟨.inl (List.count_eq_zero_of_not_mem hquote), fun c hc => ?_⟩
    rcases List.mem_append.mp hc with hc | hc
    · have hlower : ("org ".toList.all fun d => d.toLower == d) = true := by decide
      exact eq_of_beq (List.all_eq_true.mp hlower c hc)
    · exact toLower_of_mem_decimal hc

@[simp]
theorem address?_toNat (address : Address) : address? (address.toNat : Int) = some address := by
  have hlt := address.toNat_lt
  rw [address?, if_pos (by omega)]
  refine congrArg some (UInt16.toNat_inj.mp ?_)
  rw [UInt16.ofInt, UInt16.toNat_ofNat']
  omega

/-- The canonical line of an origin says that origin. -/
theorem means_originText (address : Address) : Means (originText address) (.origin address) := by
  have hblank : ∀ c ∈ Numeral.decimal address.toNat, isBlank c = false := fun c hc =>
    Numeral.isBlank_of_mem_decimal hc
  have hkeyword : Text.afterKeyword? "org".toList (originText address) =
      some (' ' :: Numeral.decimal address.toNat) := by
    have happend := Text.afterKeyword?_append no_blank_org no_blank_org
      (Text.isBlank_head?_space (Numeral.decimal address.toNat))
    rwa [if_pos (by decide)] at happend
  have htrim : trim (' ' :: Numeral.decimal address.toNat) = Numeral.decimal address.toNat := by
    rw [Text.trim_cons_of_blank rfl, Text.trim_eq_self (Text.trimmed_of_no_blank hblank)]
  have hone : ((Numeral.decimal address.toNat).isEmpty ||
      (Numeral.decimal address.toNat).any isBlank) = false := by
    rw [Bool.or_eq_false_iff, List.any_eq_false]
    refine ⟨?_, fun c hc => by rw [hblank c hc]; exact Bool.false_ne_true⟩
    exact List.isEmpty_eq_false_iff.mpr Nat.toDigits_ne_nil
  have hread : Literal.read (Numeral.decimal address.toNat) = .ok (address.toNat : Int) := by
    have hlt := address.toNat_lt
    rw [← Numeral.signedDecimal_natCast]
    exact Literal.read_signedDecimal (by omega) (by omega)
  refine .origin (by simp [originText]) hkeyword ?_
  rw [readOrigin, htrim, hone, hread]
  dsimp only
  rw [address?_toNat]
  rfl

end Line

end Z80
