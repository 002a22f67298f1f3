import Z80.Proofs.Literal

/-!
# Printed numbers

A number of 64 bits is a literal in its decimal digits, and one without a sign in its hexadecimal
digits: with a mark of the base, or without if the digits show their base.  So the rules for
literals, of which the first that fits counts, take no printed number for another.
-/

namespace Z80

open Text (lower)

/-! ## Digits -/

namespace Numeral

variable {base : Nat} {t : Text}

theorem positional_toDigits (hbase : 1 < base) (hle : base ≤ 16) (n : Nat) :
    Positional base (Nat.toDigits base n) n :=
  (natural?_eq_some hle).mp (natural?_toDigits hbase hle n)

/-- Zeros in front do not count. -/
theorem positional_zeros (hbase : 1 < base) (hle : base ≤ 16) (zeros n : Nat) :
    Positional base (List.replicate zeros '0' ++ Nat.toDigits base n) n := by
  have hzero : digit? base '0' = some 0 := digit?_digitChar (d := 0) (by omega) hle
  have hzeros : digitsFrom? base 0 (List.replicate zeros '0') = some 0 := by
    induction zeros with
    | zero => rfl
    | succ zeros ih =>
      rw [List.replicate_succ, digitsFrom?, hzero, Option.bind_some, Nat.zero_mul]
      exact ih
  rw [← natural?_eq_some hle, natural?, if_neg (by simp), digitsFrom?_append, hzeros,
    Option.bind_some, digitsFrom?_toDigits hbase hle]

theorem Positional.notMem (hbase : base ≤ 16) {n : Nat} (h : Positional base t n) {c : Char}
    (hc : digit? base c = none) : c ∉ t := by
  intro hmem
  have hdigit := h.isSome_digit? hbase hmem
  rw [hc] at hdigit
  cases hdigit

/-- Digits take one byte each. -/
theorem Positional.length_utf8 (hbase : base ≤ 16) {n : Nat} (h : Positional base t n) :
    t.utf8.length = t.length := by
  have hsize : ∀ c ∈ t, c.utf8Size = 1 := by
    intro c hc
    obtain ⟨d, hd⟩ := Option.isSome_iff_exists.mp (h.isSome_digit? hbase hc)
    obtain ⟨hlt, hlower⟩ := (digit?_eq_some hbase).mp hd
    have hn := toNat_digitChar (d := d) (by omega)
    rw [← hlower, Text.toNat_toLower] at hn
    refine Char.utf8Size_eq_one_iff.mpr (UInt32.le_iff_toNat_le.mpr ?_)
    change c.toNat ≤ 127
    split at hn <;> split at hn <;> omega
  exact Text.length_utf8_of_one_byte hsize

@[simp] theorem signedDecimal_natCast (n : Nat) : signedDecimal n = decimal n := if_neg (by omega)

theorem signedDecimal_neg {n : Nat} (hn : n ≠ 0) : signedDecimal (-n) = '-' :: decimal n := by
  rw [signedDecimal, if_pos (by omega), Int.natAbs_neg, Int.natAbs_natCast]

theorem signed_signedDecimal (n : Int) : Signed 10 (signedDecimal n) n := by
  have hdigits : ∀ m : Nat, Positional 10 (decimal m) m :=
    positional_toDigits (by decide) (by decide)
  by_cases hn : n < 0
  · obtain ⟨m, rfl⟩ : ∃ m : Nat, n = -m := ⟨n.natAbs, by omega⟩
    rw [signedDecimal_neg (by omega)]
    exact .minus (hdigits m)
  · obtain ⟨m, rfl⟩ : ∃ m : Nat, n = m := ⟨n.natAbs, by omega⟩
    rw [signedDecimal_natCast]
    exact .plain (hdigits m)

/-- There are only digits and a sign in a decimal number. -/
theorem notMem_signedDecimal {n : Int} {c : Char} (hdigit : digit? 10 c = none) (hminus : c ≠ '-') :
    c ∉ signedDecimal n := by
  intro hmem
  have hsome := (signed_signedDecimal n).digit_of_mem (by decide) hmem hminus
  rw [hdigit] at hsome
  cases hsome

end Numeral

/-! ## Marks -/

namespace Literal

open Numeral (Positional Signed signedDecimal)

variable {t s digits : Text} {base n : Nat} {v : Int}

/-- Digits of 64 bits are read by their base. -/
theorem Based.read (h : Based t digits base) (hsigned : Signed base digits v) (hlow : -2 ^ 63 ≤ v)
    (hhigh : v ≤ 2 ^ 63 - 1) : read t = .ok v := by
  have hquote : t.head? ≠ some '"' := by
    intro hhead
    rcases h.mem_cases hsigned (List.mem_of_head? hhead) with hmark | hminus | hdigit
    · exact absurd hmark (by decide)
    · exact absurd hminus (by decide)
    · simp [Numeral.digit?] at hdigit
  have htrim : Text.trim t = t :=
    Text.trim_eq_self (Text.trimmed_of_no_blank fun c hc => h.isBlank_of_mem hsigned hc)
  rw [read_eq_ok, htrim, value?_eq_some hquote h]
  exact ⟨hsigned, hlow, hhigh⟩

theorem not_front_of_notMem (hx : 'x' ∉ t) (hX : 'X' ∉ t) : ¬ "0x".toList <+: lower t := by
  intro hfront
  obtain ⟨x, rest, rfl, rfl | rfl⟩ := front_iff.mp hfront
  · exact hx (by simp)
  · exact hX (by simp)

theorem not_behind_of_notMem (hh : 'h' ∉ t) (hH : 'H' ∉ t) : ¬ "h".toList <:+ lower t := by
  intro hbehind
  rcases behind_iff.mp hbehind with hlast | hlast
  · exact hh (List.mem_of_getLast? hlast)
  · exact hH (List.mem_of_getLast? hlast)

/-! ### Decimal numbers -/

@[simp]
theorem looksHexadecimal_signedDecimal (n : Int) : looksHexadecimal (signedDecimal n) = false := by
  by_cases hn : n < 0
  · obtain ⟨m, rfl⟩ : ∃ m : Nat, n = -m := ⟨n.natAbs, by omega⟩
    have hdigits := looksHexadecimal_decimal m
    rw [looksHexadecimal, Bool.or_eq_false_iff] at hdigits
    rw [Numeral.signedDecimal_neg (by omega), looksHexadecimal, List.any_cons, hdigits.1]
    simp [Numeral.digit?]
  · obtain ⟨m, rfl⟩ : ∃ m : Nat, n = m := ⟨n.natAbs, by omega⟩
    simp

/-- No rule takes a decimal number for a hexadecimal one. -/
theorem based_signedDecimal (n : Int) : Based (signedDecimal n) (signedDecimal n) 10 := by
  refine .decimal (not_front_of_notMem ?_ ?_) (not_behind_of_notMem ?_ ?_) ?_
  · exact Numeral.notMem_signedDecimal rfl (by decide)
  · exact Numeral.notMem_signedDecimal rfl (by decide)
  · exact Numeral.notMem_signedDecimal rfl (by decide)
  · exact Numeral.notMem_signedDecimal rfl (by decide)
  · rw [← looksHexadecimal_iff, looksHexadecimal_signedDecimal]
    exact Bool.false_ne_true

theorem read_signedDecimal (hlow : -2 ^ 63 ≤ v) (hhigh : v ≤ 2 ^ 63 - 1) :
    read (signedDecimal v) = .ok v :=
  (based_signedDecimal v).read (Numeral.signed_signedDecimal v) hlow hhigh

/-! ### Hexadecimal numbers -/

/-- Hexadecimal digits have no character of a mark. -/
theorem mark_notMem (h : Positional 16 s n) : 'x' ∉ s ∧ 'X' ∉ s ∧ 'h' ∉ s ∧ 'H' ∉ s :=
  ⟨h.notMem (by decide) rfl, h.notMem (by decide) rfl, h.notMem (by decide) rfl,
    h.notMem (by decide) rfl⟩

theorem read_front (h : Positional 16 s n) (hn : n ≤ 2 ^ 63 - 1) {x : Char}
    (hx : x = 'x' ∨ x = 'X') :
    read ('0' :: x :: s) = .ok (n : Int) := by
  have hbased : Based ('0' :: x :: s) s 16 := .front (front_iff.mpr ⟨x, s, rfl, hx⟩)
  exact hbased.read (.plain h) (by omega) (by omega)

theorem read_behind (h : Positional 16 s n) (hn : n ≤ 2 ^ 63 - 1) {mark : Char}
    (hmark : mark = 'h' ∨ mark = 'H') : read (s ++ [mark]) = .ok (n : Int) := by
  obtain ⟨hx, hX, -, -⟩ := mark_notMem h
  have hfront : ¬ "0x".toList <+: lower (s ++ [mark]) := by
    refine not_front_of_notMem ?_ ?_
    · rcases hmark with rfl | rfl <;> simpa using hx
    · rcases hmark with rfl | rfl <;> simpa using hX
  have hbased : Based (s ++ [mark]) (s ++ [mark]).dropLast 16 := by
    refine .behind hfront (behind_iff.mpr ?_)
    rcases hmark with rfl | rfl
    · exact .inl List.getLast?_concat
    · exact .inr List.getLast?_concat
  rw [List.dropLast_concat] at hbased
  exact hbased.read (.plain h) (by omega) (by omega)

/-- Without a mark the digits have to show their base. -/
theorem read_bare (h : Positional 16 s n) (hn : n ≤ 2 ^ 63 - 1)
    (hdigits : (∃ c ∈ lower s, 'a' ≤ c ∧ c ≤ 'f') ∨ s.length % 2 = 0 ∧ s.head? = some '0') :
    read s = .ok (n : Int) := by
  obtain ⟨hx, hX, hh, hH⟩ := mark_notMem h
  rw [← h.length_utf8 (by decide)] at hdigits
  have hbased : Based s s 16 :=
    .bare (not_front_of_notMem hx hX) (not_behind_of_notMem hh hH) hdigits
  exact hbased.read (.plain h) (by omega) (by omega)

/-- Every number of 64 bits is read back from its decimal digits, which never look hexadecimal.
Every such number without a sign is read back from its hexadecimal digits, in any letter case and
with any number of zeros in front: with a mark before them or behind them, and without one if there
is a letter among the digits, or an even number of them that starts with a zero. -/
theorem printed_reads_back :
    (∀ n : Int, -2 ^ 63 ≤ n → n ≤ 2 ^ 63 - 1 →
      read (signedDecimal n) = .ok n ∧ looksHexadecimal (signedDecimal n) = false) ∧
    ∀ (n zeros : Nat) (s : Text), n ≤ 2 ^ 63 - 1 →
      lower s = List.replicate zeros '0' ++ Nat.toDigits 16 n →
      read ('0' :: 'x' :: s) = .ok (n : Int) ∧ read ('0' :: 'X' :: s) = .ok (n : Int) ∧
      read (s ++ ['h']) = .ok (n : Int) ∧ read (s ++ ['H']) = .ok (n : Int) ∧
      ((∃ c ∈ lower s, 'a' ≤ c ∧ c ≤ 'f') ∨ s.length % 2 = 0 ∧ s.head? = some '0' →
        read s = .ok (n : Int)) := by
  refine ⟨fun n hlow hhigh => ⟨read_signedDecimal hlow hhigh, looksHexadecimal_signedDecimal n⟩, ?_⟩
  intro n zeros s hn hs
  have hdigits : Positional 16 s n := by
    have hlower : Positional 16 (lower s) n := by
      rw [hs]
      exact Numeral.positional_zeros (by decide) (by decide) zeros n
    exact hlower.of_lower (Text.lower_lower s).symm
  refine ⟨read_front hdigits hn (.inl rfl), read_front hdigits hn (.inr rfl),
    read_behind hdigits hn (.inl rfl), read_behind hdigits hn (.inr rfl), read_bare hdigits hn⟩

/-- The least and the greatest number of 64 bits, and zero in two digits and without a letter. -/
theorem extremes_read_back :
    read "-9223372036854775808".toList = .ok (-2 ^ 63) ∧
    read "9223372036854775807".toList = .ok (2 ^ 63 - 1) ∧
    read "0x007FfFfFfFfFfFfFfF".toList = .ok (2 ^ 63 - 1) ∧
    read "007FfFfFfFfFfFfFfF".toList = .ok (2 ^ 63 - 1) ∧
    read "00".toList = .ok 0 := by
  obtain ⟨hdecimal, hhexadecimal⟩ := printed_reads_back
  have hleast : signedDecimal (-2 ^ 63) = "-9223372036854775808".toList := by decide +kernel
  have hmost : signedDecimal (2 ^ 63 - 1) = "9223372036854775807".toList := by decide +kernel
  have hgreatest :=
    hhexadecimal (2 ^ 63 - 1) 2 "007FfFfFfFfFfFfFfF".toList (by decide) (by decide +kernel)
  have hzero := hhexadecimal 0 1 "00".toList (by decide) (by decide +kernel)
  rw [← hleast, ← hmost]
  exact ⟨(hdecimal _ (by decide) (by decide)).1, (hdecimal _ (by decide) (by decide)).1,
    hgreatest.1, hgreatest.2.2.2.2 (.inl ⟨'f', by decide, by decide⟩),
    hzero.2.2.2.2 (.inr (by decide))⟩

end Literal

end Z80
