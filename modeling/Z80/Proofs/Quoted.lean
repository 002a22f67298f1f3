import Z80.Proofs.Rereading

/-!
# Quoted literals

A literal that starts with a quote is read up to the next quote: its value is that of the first byte
between the two (`value?_quoted`).  What follows the second quote is not looked at, so a token with
more text there has the value it has without, and a statement is encoded as if its operands ended at
their second quote.
-/

namespace Z80

open Text (trim utf8)

/-! ## Tokens -/

namespace Literal

variable {t inside after token : Text} {v : Int}

/-- A text between two quotes, and what follows the second. -/
def quoted (inside after : Text) : Text := '"' :: (inside ++ '"' :: after)

/-- The text is quoted and goes on with `after`; the value is that of the first byte between its
quotes. -/
def QuotedValue (after t : Text) (v : Int) : Prop :=
  ∃ (inside : Text) (b : UInt8), t = quoted inside after ∧ inside ≠ [] ∧ '"' ∉ inside ∧
    (utf8 inside).head? = some b ∧ v = b.toNat

theorem value?_quoted (h : '"' ∉ inside) (after : Text) :
    value? (quoted inside after) = (utf8 inside).head?.map fun b => (b.toNat : Int) := by
  rw [quoted, value?, if_pos (by simp), (Line.dropWhile_quote h).1]

/-- What starts with a quote either has a second one or has no value. -/
theorem exists_quoted (hquote : t.head? = some '"') (hvalue : value? t = some v) :
    ∃ inside after, '"' ∉ inside ∧ t = quoted inside after := by
  obtain ⟨rest, rfl⟩ := List.head?_eq_some_iff.mp hquote
  rw [value?] at hvalue
  split at hvalue
  · next hmem =>
    obtain ⟨inside, after, rfl, hinside⟩ := List.eq_append_cons_of_mem hmem
    exact ⟨inside, after, hinside, rfl⟩
  · cases hvalue

theorem value?_eq_some_of_quote (hquote : t.head? = some '"') :
    value? t = some v ↔ ∃ after, QuotedValue after t v := by
  constructor
  · intro h
    obtain ⟨inside, after, hinside, rfl⟩ := exists_quoted hquote h
    rw [value?_quoted hinside] at h
    obtain ⟨b, hb, rfl⟩ := Option.map_eq_some_iff.mp h
    refine ⟨after, inside, b, rfl, ?_, hinside, hb, rfl⟩
    rintro rfl
    cases hb
  · rintro ⟨after, inside, b, rfl, -, hinside, hb, rfl⟩
    rw [value?_quoted hinside, hb]
    rfl

theorem QuotedValue.eq_of_quoted {after' : Text} (h : QuotedValue after' (quoted inside after) v)
    (hinside : '"' ∉ inside) : after' = after := by
  obtain ⟨inside', -, heq, -, hinside', -⟩ := h
  have hdrop := congrArg (List.dropWhile (· != '"')) (List.cons.inj heq).2
  rw [(Line.dropWhile_quote hinside).2, (Line.dropWhile_quote hinside').2] at hdrop
  exact (List.cons.inj hdrop).2.symm

/-- Blanks at the end are not part of what follows the quotes. -/
@[simp] theorem trim_quoted (inside after : Text) :
    trim (quoted inside after) = quoted inside (Text.trimEnd after) := by
  have hfront : Text.Trimmed ('"' :: (inside ++ ['"'])) := Text.trimmed_enclosed rfl rfl inside
  have htrim := Text.trim_append_of_start hfront (List.cons_ne_nil _ _) after
  simpa [quoted] using htrim

/-- The text up to its second quote, if it starts with a quote and there is a second. -/
def clip : Text → Text
  | '"' :: rest => if '"' ∈ rest then quoted (rest.takeWhile (· != '"')) [] else '"' :: rest
  | t => t

theorem clip_cases (t : Text) :
    clip t = t ∨ ∃ inside after, '"' ∉ inside ∧ t = quoted inside after ∧
      clip t = quoted inside [] := by
  by_cases hquote : t.head? = some '"'
  · obtain ⟨rest, rfl⟩ := List.head?_eq_some_iff.mp hquote
    by_cases hmem : '"' ∈ rest
    · obtain ⟨inside, after, rfl, hinside⟩ := List.eq_append_cons_of_mem hmem
      refine .inr ⟨inside, after, hinside, rfl, ?_⟩
      rw [clip, if_pos hmem, (Line.dropWhile_quote hinside).1]
    · exact .inl (if_neg hmem)
  · refine .inl ?_
    rw [clip.eq_def]
    split
    · exact absurd rfl hquote
    · rfl

end Literal

/-! ## Operands -/

namespace Operand

open Literal (clip quoted)

/-- Literals of one value.  Both hold a quote, so no table has an entry for them. -/
structure SameValue (t u : Text) : Prop where
  left : '"' ∈ t
  right : '"' ∈ u
  read : ∀ v, Literal.read t = .ok v ↔ Literal.read u = .ok v

/-- Operands that differ at most in how a quoted literal is written. -/
inductive Requoted : Operand → Operand → Prop
  | same (a : Operand) : Requoted a a
  | immediate {t u : Text} (h : SameValue t u) : Requoted (.immediate t) (.immediate u)
  | direct {t u : Text} (h : SameValue t u) : Requoted (.direct t) (.direct u)

/-- The operand with its literal up to the second quote. -/
def clipped : Operand → Operand
  | .immediate value => .immediate (clip value)
  | .direct address => .direct (clip address)
  | other => other

/-- What follows the second quote does not count for the value. -/
theorem sameValue_clip {t : Text} (h : clip t ≠ t) : SameValue t (clip t) := by
  rcases Literal.clip_cases t with heq | ⟨inside, after, hinside, rfl, heq⟩
  · exact absurd heq h
  · rw [heq]
    refine ⟨List.mem_cons_self, List.mem_cons_self, fun v => ?_⟩
    rw [Literal.read_eq_ok, Literal.read_eq_ok, Literal.trim_quoted, Literal.trim_quoted,
      Literal.value?_quoted hinside, Literal.value?_quoted hinside]

theorem requoted_clipped (a : Operand) : Requoted a a.clipped := by
  cases a with
  | immediate value =>
    by_cases h : clip value = value
    · rw [clipped, h]
      exact .same _
    · exact .immediate (sameValue_clip h)
  | direct address =>
    by_cases h : clip address = address
    · rw [clipped, h]
      exact .same _
    · exact .direct (sameValue_clip h)
  | _ => exact .same _

namespace Requoted

variable {a b : Operand} {l l' : List Operand}

theorem symm (h : Requoted a b) : Requoted b a := by
  cases h with
  | same a => exact .same a
  | immediate h => exact .immediate ⟨h.right, h.left, fun v => (h.read v).symm⟩
  | direct h => exact .direct ⟨h.right, h.left, fun v => (h.read v).symm⟩

theorem isNumeric_eq (h : Requoted a b) : a.isNumeric = b.isNumeric := by
  cases h <;> rfl

theorem star_eq (h : Requoted a b) : a.star = b.star := by
  cases h <;> rfl

theorem valueOf (h : Requoted a b) {v : Int} (hv : Encoding.valueOf a = .ok v) :
    Encoding.valueOf b = .ok v := by
  cases h with
  | same a => exact hv
  | immediate h => exact (h.read v).mp hv
  | direct h => exact (h.read v).mp hv

theorem dataByte (h : Requoted a b) {bytes : List UInt8}
    (hbytes : Encoding.dataByte a = .ok bytes) :
    Encoding.dataByte b = .ok bytes := by
  cases h with
  | same a => exact hbytes
  | immediate h =>
    obtain ⟨v, hv, hbytes⟩ := bind_eq_ok.mp hbytes
    exact bind_eq_ok.mpr ⟨v, (h.read v).mp hv, hbytes⟩
  | direct h => cases hbytes

/-- Lists of such operands are the same, or each of them holds a quote. -/
theorem eq_or_quote (h : List.Forall₂ Requoted l l') :
    l = l' ∨ (∃ a ∈ l, '"' ∈ a.spell) ∧ ∃ b ∈ l', '"' ∈ b.spell := by
  induction h with
  | nil => exact .inl rfl
  | @cons a b l l' hab _ ih =>
    have hfirst : '"' ∈ a.spell → '"' ∈ b.spell →
        (∃ c ∈ a :: l, '"' ∈ c.spell) ∧ ∃ c ∈ b :: l', '"' ∈ c.spell := fun ha hb =>
      ⟨⟨a, List.mem_cons_self, ha⟩, ⟨b, List.mem_cons_self, hb⟩⟩
    cases hab with
    | same =>
      rcases ih with rfl | ⟨⟨c, hc, hquote⟩, ⟨d, hd, hquote'⟩⟩
      · exact .inl rfl
      · exact .inr ⟨⟨c, List.mem_cons_of_mem _ hc, hquote⟩, ⟨d, List.mem_cons_of_mem _ hd, hquote'⟩⟩
    | immediate h => exact .inr (hfirst h.left h.right)
    | direct h =>
      exact .inr (hfirst (List.mem_cons_of_mem _ (List.mem_append_left _ h.left))
        (List.mem_cons_of_mem _ (List.mem_append_left _ h.right)))

end Requoted

end Operand

/-! ## Statements -/

/-- The statement with each literal up to its second quote. -/
def Statement.clipped (s : Statement) : Statement := ⟨s.mnemonic, s.operands.map Operand.clipped⟩

theorem Statement.quote_mem_text {s : Statement} (h : ∃ a ∈ s.operands, '"' ∈ a.spell) :
    '"' ∈ s.text := by
  obtain ⟨a, ha, hquote⟩ := h
  rw [text_eq, if_neg (List.ne_nil_of_mem ha)]
  refine List.mem_append_right _ (List.mem_cons_of_mem _ ?_)
  exact Text.mem_intercalate _ (List.mem_map_of_mem ha) hquote

namespace Encoding

open Operand (Requoted)

variable {table : OpcodeTable} {v : Vocabulary} {mnemonic : Text} {l l' : List Operand}
    {encoding : Encoding}

theorem labelOf_of_requoted {s s' : Statement} (h : List.Forall₂ Requoted l l')
    {label? : Option Text} (hlabel : labelOf s l = .ok label?) : labelOf s' l' = .ok label? := by
  induction h with
  | nil => exact hlabel
  | @cons a b rest rest' hab hrest ih =>
    cases hab with
    | same =>
      cases a with
      | label name =>
        cases hrest with
        | nil => exact hlabel
        | cons _ _ => cases hlabel
      | _ => exact ih hlabel
    | immediate _ => exact ih hlabel
    | direct _ => exact ih hlabel

theorem referenceOf_of_requoted (h : List.Forall₂ Requoted l l') {reference? : Option Reference}
    (hreference : referenceOf v ⟨mnemonic, l⟩ = .ok reference?) :
    referenceOf v ⟨mnemonic, l'⟩ = .ok reference? := by
  rw [referenceOf] at hreference ⊢
  split at hreference
  · cases hreference
  · next hcolon =>
    rw [if_neg hcolon]
    cases hlabel : labelOf ⟨mnemonic, l⟩ l with
    | error fault =>
      rw [hlabel] at hreference
      cases hreference
    | ok label? =>
      rw [hlabel] at hreference
      rw [labelOf_of_requoted h hlabel]
      cases label? with
      | none => exact hreference
      | some label =>
        dsimp only at hreference ⊢
        split at hreference
        · exact hreference
        · cases hreference

theorem starred?_of_requoted (h : List.Forall₂ Requoted l l') {key : Text} {a : Operand}
    (hkey : Statement.starred? ⟨mnemonic, l⟩ = some (key, a)) :
    ∃ b, Requoted a b ∧ Statement.starred? ⟨mnemonic, l'⟩ = some (key, b) := by
  obtain ⟨hfilter, hjoin⟩ := starred?_eq_some.mp hkey
  have hnumeric :
      List.Forall₂ Requoted (l.filter Operand.isNumeric) (l'.filter Operand.isNumeric) :=
    List.rel_filter (fun a b hab => iff_of_eq (congrArg (· = true) hab.isNumeric_eq)) h
  have hstar : l.map Operand.star = l'.map Operand.star := by
    rw [← List.forall₂_eq_eq_eq, List.forall₂_map_left_iff, List.forall₂_map_right_iff]
    exact h.imp fun a b hab => hab.star_eq
  have hempty : l.isEmpty = l'.isEmpty := by
    cases h <;> rfl
  rw [show l.filter Operand.isNumeric = [a] from hfilter] at hnumeric
  cases hfilter' : l'.filter Operand.isNumeric with
  | nil =>
    rw [hfilter'] at hnumeric
    cases hnumeric
  | cons b rest =>
    rw [hfilter'] at hnumeric
    cases hnumeric with
    | cons hab hnil =>
      cases hnil
      refine ⟨b, hab, starred?_eq_some.mpr ⟨hfilter', ?_⟩⟩
      rw [← hjoin, Statement.join, Statement.join]
      dsimp only
      rw [hempty, hstar]

theorem instruction_of_requoted (htable : table.Unquoted) (h : List.Forall₂ Requoted l l')
    (hencoding : instruction table ⟨mnemonic, l⟩ = .ok encoding) :
    instruction table ⟨mnemonic, l'⟩ = .ok encoding := by
  rcases Requoted.eq_or_quote h with rfl | ⟨hquote, hquote'⟩
  · exact hencoding
  -- an entry for either statement would hold a quote
  have hnone : ∀ operands : List Operand, (∃ a ∈ operands, '"' ∈ a.spell) →
      table.fixed? (Statement.text ⟨mnemonic, operands⟩) = none := by
    intro operands hmem
    rw [Option.eq_none_iff_forall_ne_some]
    intro bytes hfixed
    exact quote_notMem_of_lookup htable.fixed hfixed (Statement.quote_mem_text hmem)
  rw [instruction, hnone l hquote] at hencoding
  rw [instruction, hnone l' hquote']
  dsimp only at hencoding ⊢
  split at hencoding
  · cases hencoding
  · next rule _ hfound =>
    obtain ⟨⟨key, a⟩, hkey, hmap⟩ := Option.bind_eq_some_iff.mp hfound
    obtain ⟨_, hrule, heq⟩ := Option.map_eq_some_iff.mp hmap
    cases heq
    obtain ⟨b, hab, hkey'⟩ := starred?_of_requoted h hkey
    obtain ⟨value, hvalue, hnumber⟩ := bind_eq_ok.mp hencoding
    rw [hkey', Option.bind_some, hrule]
    exact bind_eq_ok.mpr ⟨value, hab.valueOf hvalue, hnumber⟩

theorem mapM_dataByte_of_requoted (h : List.Forall₂ Requoted l l') {parts : List (List UInt8)}
    (hparts : l.mapM dataByte = .ok parts) : l'.mapM dataByte = .ok parts := by
  rw [mapM_eq_ok] at hparts ⊢
  induction h generalizing parts with
  | nil => exact hparts
  | cons hab _ ih =>
    cases hparts with
    | cons hfirst hlater => exact .cons (hab.dataByte hfirst) (ih hlater)

theorem dataBytes_of_requoted (h : List.Forall₂ Requoted l l')
    (hencoding : dataBytes ⟨mnemonic, l⟩ = .ok encoding) :
    dataBytes ⟨mnemonic, l'⟩ = .ok encoding := by
  have hempty : l.isEmpty = l'.isEmpty := by
    cases h <;> rfl
  rw [dataBytes] at hencoding ⊢
  dsimp only at hencoding ⊢
  rw [← hempty]
  split at hencoding
  · cases hencoding
  · next hne =>
    obtain ⟨parts, hparts, hencoding⟩ := bind_eq_ok.mp hencoding
    rw [if_neg hne]
    exact bind_eq_ok.mpr ⟨parts, mapM_dataByte_of_requoted h hparts, hencoding⟩

theorem messageOf_of_requoted (h : List.Forall₂ Requoted l l') :
    messageOf ⟨mnemonic, l⟩ = messageOf ⟨mnemonic, l'⟩ := by
  cases h with
  | nil => rfl
  | @cons a b rest rest' hab hrest =>
    cases hab with
    | same =>
      cases hrest with
      | nil => rfl
      | cons _ _ => cases a <;> rfl
    | immediate _ => rfl
    | direct _ => rfl

theorem placeholder_of_requoted (htable : table.Unquoted) (h : List.Forall₂ Requoted l l')
    (hencoding : placeholder table ⟨mnemonic, l⟩ = .ok encoding) :
    placeholder table ⟨mnemonic, l'⟩ = .ok encoding := by
  rw [placeholder] at hencoding ⊢
  dsimp only at hencoding ⊢
  split at hencoding
  · next hbytes =>
    rw [if_pos hbytes]
    exact dataBytes_of_requoted h hencoding
  · next hbytes =>
    rw [if_neg hbytes]
    split at hencoding
    · next htext =>
      rw [dataText, messageOf_of_requoted h] at hencoding
      rw [if_pos htext, dataText]
      split at hencoding
      · cases hencoding
      · next hmessage =>
        rw [if_neg hmessage]
        exact hencoding
    · next htext =>
      rw [if_neg htext]
      exact instruction_of_requoted htable h hencoding

/-- The encoder knows a quoted literal by its value only. -/
theorem ofStatement_of_requoted (htable : table.Unquoted) (h : List.Forall₂ Requoted l l')
    (hencoding : ofStatement table ⟨mnemonic, l⟩ = .ok encoding) :
    ofStatement table ⟨mnemonic, l'⟩ = .ok encoding := by
  obtain ⟨reference?, hreference, hencoding⟩ := bind_eq_ok.mp hencoding
  obtain ⟨body, hbody, hencoding⟩ := bind_eq_ok.mp hencoding
  refine bind_eq_ok.mpr ⟨reference?, referenceOf_of_requoted h hreference, ?_⟩
  refine bind_eq_ok.mpr ⟨body, placeholder_of_requoted htable h hbody, ?_⟩
  cases reference? with
  | none => exact hencoding
  | some reference =>
    dsimp only at hencoding ⊢
    split at hencoding
    · next hform =>
      rw [if_pos hform]
      exact hencoding
    · cases hencoding

/-- What follows the second quote of a literal does not count for the code. -/
theorem ofStatement_clipped (s : Statement) (encoding : Encoding) :
    ofStatement InstructionSet.table s = .ok encoding ↔
      ofStatement InstructionSet.table s.clipped = .ok encoding := by
  have hclipped : List.Forall₂ Requoted s.operands (s.operands.map Operand.clipped) :=
    List.forall₂_map_right_iff.mpr (List.forall₂_same.mpr fun a _ => a.requoted_clipped)
  refine ⟨ofStatement_of_requoted InstructionSet.unquoted_table hclipped, ?_⟩
  refine ofStatement_of_requoted InstructionSet.unquoted_table ?_
  exact .flip (hclipped.imp fun a b hab => hab.symm)

end Encoding

namespace Literal

variable {token : Text} {v : Int}

theorem read_eq_ok_of_quote (hquote : (trim token).head? = some '"') :
    read token = .ok v ↔ ∃ after, QuotedValue after (trim token) v :=
  read_eq_ok.trans (value?_eq_some_of_quote hquote)

theorem read_eq_error_of_quote (hquote : (trim token).head? = some '"')
    (hnone : ¬ ∃ after v, QuotedValue after (trim token) v) :
    read token = .error (.invalidLiteral (trim token)) := by
  refine read_of_no_value fun v hv => hnone ?_
  obtain ⟨after, hvalue⟩ := (read_eq_ok_of_quote hquote).mp hv
  exact ⟨after, v, hvalue⟩

/-- A token that starts with a quote has a value if and only if something stands between its first
two quotes: that of the first byte there.  Any other such token is refused by its text.  Nothing is
asked of what follows the second quote: that only a token that ends there has a value, and every
other is refused, is true of a token just if nothing follows or it has no value.  So the encoder
gives a statement the code that it has with each literal cut off at its second quote. -/
theorem quoted_up_to_second_quote (token : Text) (hquote : (trim token).head? = some '"')
    (s : Statement) (encoding : Encoding) :
    (∀ v, read token = .ok v ↔ ∃ after, QuotedValue after (trim token) v) ∧
    ((¬ ∃ after v, QuotedValue after (trim token) v) →
      read token = .error (.invalidLiteral (trim token))) ∧
    (((∀ v, read token = .ok v ↔ QuotedValue [] (trim token) v) ∧
        ((¬ ∃ v, QuotedValue [] (trim token) v) →
          read token = .error (.invalidLiteral (trim token)))) ↔
      ∀ after v, QuotedValue after (trim token) v → after = []) ∧
    (Encoding.ofStatement InstructionSet.table s = .ok encoding ↔
      Encoding.ofStatement InstructionSet.table s.clipped = .ok encoding) := by
  have hread : ∀ v, read token = .ok v ↔ ∃ after, QuotedValue after (trim token) v := fun v =>
    read_eq_ok_of_quote hquote
  refine ⟨hread, read_eq_error_of_quote hquote,
    ⟨fun h after v hv => ?_, fun h => ⟨fun v => ?_, ?_⟩⟩, Encoding.ofStatement_clipped s encoding⟩
  · have hwhole := (h.1 v).mp ((hread v).mpr ⟨after, hv⟩)
    obtain ⟨inside, -, heq, -, hinside, -⟩ := hv
    rw [heq] at hwhole
    exact (hwhole.eq_of_quoted hinside).symm
  · rw [hread]
    constructor
    · rintro ⟨after, hv⟩
      obtain rfl := h after v hv
      exact hv
    · exact fun hv => ⟨[], hv⟩
  · intro hnone
    refine read_eq_error_of_quote hquote ?_
    rintro ⟨after, v, hv⟩
    obtain rfl := h after v hv
    exact hnone ⟨v, hv⟩

/-- A letter between quotes, and another behind them. -/
def overrunLiteral : Text := "\"a\"z".toList

/-- The other letter does not count: the literal is read as without it. -/
theorem overrunLiteral_read :
    (trim overrunLiteral).head? = some '"' ∧ QuotedValue ['z'] (trim overrunLiteral) 97 ∧
    read overrunLiteral = .ok 97 ∧
    Encoding.ofStatement InstructionSet.table ⟨"defb".toList, [.immediate overrunLiteral]⟩ =
      .ok ⟨[97], .data, none⟩ := by
  have hvalue : QuotedValue ['z'] (trim overrunLiteral) 97 :=
    ⟨['a'], 97, by decide, by decide, by decide, by decide, by decide⟩
  obtain ⟨hread, -, -, hencode⟩ := quoted_up_to_second_quote overrunLiteral (by decide)
    ⟨"defb".toList, [.immediate overrunLiteral]⟩ ⟨[97], .data, none⟩
  exact ⟨by decide, hvalue, (hread 97).mpr ⟨['z'], hvalue⟩, hencode.mpr (by decide +kernel)⟩

/-- That a literal ends with its second quote fails for this one, and a line with it is
assembled. -/
theorem overrunLiteral_accepted :
    (trim overrunLiteral).head? = some '"' ∧ read overrunLiteral = .ok 97 ∧
    (¬ ∃ v, QuotedValue [] (trim overrunLiteral) v) ∧
    (assemble ⟨InstructionSet.table, {}⟩ ("ld a,".toList ++ overrunLiteral)).map (·.code.toList) =
      .ok [0x3E, 97] := by
  refine ⟨by decide, by decide, ?_, by decide +kernel⟩
  rintro ⟨v, hvalue⟩
  have hquoted : trim overrunLiteral = quoted ['a'] ['z'] := by decide
  rw [hquoted] at hvalue
  exact absurd (hvalue.eq_of_quoted (by decide)) (by decide)

end Literal

end Z80
