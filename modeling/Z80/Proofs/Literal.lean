import Mathlib.Data.Nat.Digits.Defs
import Z80.Proofs.Numeral

/-!
# The grammar of literals

A number is one or more digits of its base, after a minus sign or not.  The base is told by a mark
in front of the digits or behind them, or by the digits themselves.  A literal without quotes has a
value if and only if that value is the number which such digits stand for by their places, and fits
in 64 bits with a sign.
-/

namespace Z80

open Text (trim isBlank lower)

/-! ## Digits -/

namespace Numeral

variable {base : Nat} {t : Text}

theorem toNat_digitChar {d : Nat} (hd : d < 16) :
    d.digitChar.toNat = if d < 10 then 48 + d else 87 + d := by
  interval_cases d <;> rfl

/-- The digits of a base are those that numbers are written in, in either letter case. -/
theorem digit?_eq_some {d : Nat} {c : Char} (hbase : base ≤ 16) :
    digit? base c = some d ↔ d < base ∧ c.toLower = d.digitChar := by
  simp only [digit?, Option.ite_none_right_eq_some, Option.some.injEq]
  constructor
  · rintro ⟨hlt, rfl⟩
    refine ⟨hlt, Char.toNat_inj.mp ?_⟩
    rw [toNat_digitChar (by omega), Text.toNat_toLower]
    grind
  · rintro ⟨hd, hc⟩
    have hn := congrArg Char.toNat hc
    rw [toNat_digitChar (by omega), Text.toNat_toLower] at hn
    grind

theorem digitsFrom?_eq_some (hbase : base ≤ 16) {value n : Nat} :
    digitsFrom? base value t = some n ↔
      ∃ digits : List Nat, (∀ d ∈ digits, d < base) ∧ lower t = digits.map Nat.digitChar ∧
        n = digits.foldl (fun m d => d + base * m) value := by
  induction t generalizing value with
  | nil =>
    constructor
    · intro h
      cases h
      exact ⟨[], List.forall_mem_nil _, rfl, rfl⟩
    · rintro ⟨digits, -, hlower, rfl⟩
      cases digits with
      | nil => rfl
      | cons d digits => cases hlower
  | cons c rest ih =>
    rw [digitsFrom?, Option.bind_eq_some_iff]
    constructor
    · rintro ⟨d, hd, hrest⟩
      obtain ⟨hlt, hc⟩ := (digit?_eq_some hbase).mp hd
      obtain ⟨digits, hdigits, hlower, rfl⟩ := ih.mp hrest
      refine ⟨d :: digits, List.forall_mem_cons.mpr ⟨hlt, hdigits⟩, ?_, ?_⟩
      · exact congrArg₂ List.cons hc hlower
      · rw [List.foldl_cons, Nat.add_comm, Nat.mul_comm]
    · rintro ⟨digits, hdigits, hlower, rfl⟩
      cases digits with
      | nil => cases hlower
      | cons d digits =>
        obtain ⟨hlt, hdigits⟩ := List.forall_mem_cons.mp hdigits
        obtain ⟨hc, hlower⟩ := List.cons.inj hlower
        refine ⟨d, (digit?_eq_some hbase).mpr ⟨hlt, hc⟩, ih.mpr ⟨digits, hdigits, hlower, ?_⟩⟩
        rw [List.foldl_cons, Nat.add_comm, Nat.mul_comm]

/-- One or more digits of a base, in either letter case, and the number that they stand for by their
places. -/
def Positional (base : Nat) (t : Text) (n : Nat) : Prop :=
  ∃ digits : List Nat, digits ≠ [] ∧ (∀ d ∈ digits, d < base) ∧ lower t = digits.map Nat.digitChar ∧
    n = Nat.ofDigits base digits.reverse

theorem natural?_eq_some (hbase : base ≤ 16) {n : Nat} :
    natural? base t = some n ↔ Positional base t n := by
  have hempty : ∀ digits : List Nat, lower t = digits.map Nat.digitChar →
      (t = [] ↔ digits = []) := by
    intro digits hlower
    rw [← List.map_eq_nil_iff (f := Char.toLower),
      ← List.map_eq_nil_iff (f := Nat.digitChar), ← hlower]
    rfl
  have hvalue : ∀ digits : List Nat, digits.foldl (fun m d => d + base * m) 0 =
      Nat.ofDigits base digits.reverse := by
    intro digits
    rw [Nat.ofDigits_eq_foldr, List.foldr_reverse]
    rfl
  rw [natural?]
  split
  · next hnil =>
    rw [List.isEmpty_iff] at hnil
    constructor
    · intro h
      cases h
    · rintro ⟨digits, hne, -, hlower, -⟩
      exact absurd ((hempty digits hlower).mp hnil) hne
  · next hnil =>
    rw [List.isEmpty_iff] at hnil
    rw [digitsFrom?_eq_some hbase]
    constructor
    · rintro ⟨digits, hdigits, hlower, rfl⟩
      exact ⟨digits, fun hdigitsNil => hnil ((hempty digits hlower).mpr hdigitsNil), hdigits,
        hlower, hvalue digits⟩
    · rintro ⟨digits, -, hdigits, hlower, rfl⟩
      exact ⟨digits, hdigits, hlower, (hvalue digits).symm⟩

/-- A number with its sign: digits stand for it, or digits behind a minus sign for the opposite. -/
inductive Signed (base : Nat) : Text → Int → Prop
  | plain {t : Text} {n : Nat} (h : Positional base t n) : Signed base t n
  | minus {t : Text} {n : Nat} (h : Positional base t n) : Signed base ('-' :: t) (-n)

theorem Positional.isSome_digit? (hbase : base ≤ 16) {n : Nat} (h : Positional base t n) {c : Char}
    (hc : c ∈ t) : (digit? base c).isSome := by
  obtain ⟨digits, -, hdigits, hlower, -⟩ := h
  have hmem : c.toLower ∈ lower t := List.mem_map_of_mem hc
  rw [hlower] at hmem
  obtain ⟨d, hd, hcd⟩ := List.mem_map.mp hmem
  exact Option.isSome_of_mem ((digit?_eq_some hbase).mpr ⟨hdigits d hd, hcd.symm⟩)

theorem isBlank_of_digit (hbase : base ≤ 16) {c : Char} (h : (digit? base c).isSome) :
    isBlank c = false := by
  obtain ⟨d, hd⟩ := Option.isSome_iff_exists.mp h
  obtain ⟨hlt, hc⟩ := (digit?_eq_some hbase).mp hd
  have hn := toNat_digitChar (d := d) (by omega)
  rw [← Text.isBlank_toLower, hc]
  split at hn <;> exact Text.isBlank_of_printable (by omega) (by omega)

/-- A minus sign is no digit. -/
theorem Positional.minus_notMem (hbase : base ≤ 16) {n : Nat} (h : Positional base t n) :
    '-' ∉ t := by
  intro hmem
  have hdigit := h.isSome_digit? hbase hmem
  simp [digit?] at hdigit

theorem integer?_eq_some (hbase : base ≤ 16) {v : Int} :
    integer? base t = some v ↔ Signed base t v := by
  constructor
  · intro h
    rw [integer?.eq_def] at h
    split at h
    · obtain ⟨_, hnumber, rfl⟩ := Option.map_eq_some_iff.mp h
      obtain ⟨n, hn, ⟨⟩⟩ := Option.bind_eq_some_iff.mp hnumber
      exact .minus ((natural?_eq_some hbase).mp hn)
    · obtain ⟨_, hnumber, rfl⟩ := Option.map_eq_some_iff.mp h
      obtain ⟨n, hn, ⟨⟩⟩ := Option.bind_eq_some_iff.mp hnumber
      exact .plain ((natural?_eq_some hbase).mp hn)
  · intro h
    cases h with
    | plain h =>
      rw [integer?.eq_def]
      split
      · exact absurd List.mem_cons_self (h.minus_notMem hbase)
      · rw [(natural?_eq_some hbase).mpr h]
        rfl
    | minus h =>
      rw [integer?, (natural?_eq_some hbase).mpr h]
      rfl

/-- Letter case does not count. -/
theorem Positional.of_lower {n : Nat} {u : Text} (h : Positional base t n)
    (hlower : lower u = lower t) :
    Positional base u n := by
  obtain ⟨digits, hne, hdigits, ht, hn⟩ := h
  exact ⟨digits, hne, hdigits, hlower.trans ht, hn⟩

namespace Signed

variable {v : Int}

theorem unique (hbase : base ≤ 16) {v' : Int} (h : Signed base t v) (h' : Signed base t v') :
    v = v' := by
  rw [← integer?_eq_some hbase] at h h'
  rw [h] at h'
  exact Option.some.inj h'

theorem of_lower {u : Text} (h : Signed base t v) (hlower : lower u = lower t) :
    Signed base u v := by
  cases h with
  | plain h => exact .plain (h.of_lower hlower)
  | minus h =>
    cases u with
    | nil => cases hlower
    | cons c u =>
      obtain ⟨hc, hrest⟩ := List.cons.inj hlower
      obtain rfl : c = '-' := (Text.toLower_eq_iff (by decide) (by decide)).mp hc
      exact .minus (h.of_lower hrest)

theorem minus_count (hbase : base ≤ 16) (h : Signed base t v) : t.count '-' ≤ 1 := by
  cases h with
  | plain h => simp [List.count_eq_zero_of_not_mem (h.minus_notMem hbase)]
  | minus h => simp [List.count_eq_zero_of_not_mem (h.minus_notMem hbase)]

theorem ne_minus (hbase : base ≤ 16) (h : Signed base t v) : t ≠ ['-'] := by
  rintro rfl
  cases h with
  | plain h => exact h.minus_notMem hbase List.mem_cons_self
  | minus h =>
    obtain ⟨digits, hne, -, hlower, -⟩ := h
    exact hne (List.map_eq_nil_iff.mp hlower.symm)

/-- There is nothing but digits behind the sign. -/
theorem digit_of_mem (hbase : base ≤ 16) (h : Signed base t v) {c : Char} (hc : c ∈ t)
    (hne : c ≠ '-') :
    (digit? base c).isSome := by
  cases h with
  | plain h => exact h.isSome_digit? hbase hc
  | minus h => exact h.isSome_digit? hbase ((List.mem_cons.mp hc).resolve_left hne)

end Signed

end Numeral

/-! ## Marks of the base -/

namespace Literal

open Numeral (Signed)

variable {t u digits : Text} {base : Nat}

/-- A letter from `a` to `f` in either case, or a zero in front of an odd number of further
bytes. -/
def HasHexadecimalDigits (t : Text) : Prop :=
  (∃ c ∈ lower t, 'a' ≤ c ∧ c ≤ 'f') ∨ t.utf8.length % 2 = 0 ∧ t.head? = some '0'

/-- The digits of a number with their sign, and their base: hexadecimal behind `0x` or in front of
`h`, in either letter case, and otherwise as the digits look.  The first mark counts. -/
inductive Based (t : Text) : Text → Nat → Prop
  | front (hfront : "0x".toList <+: lower t) : Based t (t.drop 2) 16
  | behind (hfront : ¬ "0x".toList <+: lower t) (hbehind : "h".toList <:+ lower t) :
      Based t t.dropLast 16
  | bare (hfront : ¬ "0x".toList <+: lower t) (hbehind : ¬ "h".toList <:+ lower t)
      (hdigits : HasHexadecimalDigits t) : Based t t 16
  | decimal (hfront : ¬ "0x".toList <+: lower t) (hbehind : ¬ "h".toList <:+ lower t)
      (hdigits : ¬ HasHexadecimalDigits t) : Based t t 10

theorem exists_based (t : Text) : ∃ digits base, Based t digits base := by
  by_cases hfront : "0x".toList <+: lower t
  · exact ⟨_, _, .front hfront⟩
  by_cases hbehind : "h".toList <:+ lower t
  · exact ⟨_, _, .behind hfront hbehind⟩
  by_cases hdigits : HasHexadecimalDigits t
  · exact ⟨_, _, .bare hfront hbehind hdigits⟩
  · exact ⟨_, _, .decimal hfront hbehind hdigits⟩

theorem front_iff :
    "0x".toList <+: lower t ↔ ∃ x rest, t = '0' :: x :: rest ∧ (x = 'x' ∨ x = 'X') := by
  constructor
  · rintro ⟨rest, hrest⟩
    obtain ⟨zero, t, rfl, hzero, hx⟩ := List.map_eq_cons_iff.mp hrest.symm
    obtain ⟨x, t, rfl, hx, -⟩ := List.map_eq_cons_iff.mp hx
    obtain rfl : zero = '0' := (Text.toLower_eq_iff (by decide) (by decide)).mp hzero
    exact ⟨x, t, rfl, (Text.toLower_eq_letter_iff rfl (by decide) (by decide)).mp hx⟩
  · rintro ⟨x, rest, rfl, hx⟩
    refine ⟨lower rest, ?_⟩
    rcases hx with rfl | rfl <;> rfl

theorem behind_iff : "h".toList <:+ lower t ↔ t.getLast? = some 'h' ∨ t.getLast? = some 'H' := by
  have hsuffix : "h".toList <:+ lower t ↔ (lower t).getLast? = some 'h' := by
    rw [List.getLast?_eq_some_iff]
    exact exists_congr fun _ => eq_comm
  have hletter : ∀ c : Char, c.toLower = 'h' ↔ c = 'h' ∨ c = 'H' := fun c =>
    Text.toLower_eq_letter_iff rfl (by decide) (by decide)
  rw [hsuffix, lower, List.getLast?_map]
  cases t.getLast? with
  | none => simp
  | some c => simp [hletter]

theorem letter_iff {c : Char} :
    ((Numeral.digit? 16 c).isSome && !c.isDigit) = true ↔ 'a' ≤ c.toLower ∧ c.toLower ≤ 'f' := by
  have hle : 'a' ≤ c.toLower ∧ c.toLower ≤ 'f' ↔ 97 ≤ c.toLower.toNat ∧ c.toLower.toNat ≤ 102 :=
    and_congr UInt32.le_iff_toNat_le UInt32.le_iff_toNat_le
  have hdigit : c.isDigit = true ↔ 48 ≤ c.toNat ∧ c.toNat ≤ 57 := Char.isDigit_iff_toNat
  rw [hle, Text.toNat_toLower, Bool.and_eq_true, Bool.not_eq_true', ← Bool.not_eq_true, hdigit,
    Numeral.digit?]
  grind

theorem looksHexadecimal_iff : looksHexadecimal t = true ↔ HasHexadecimalDigits t := by
  rw [looksHexadecimal, Bool.or_eq_true, List.any_eq_true, HasHexadecimalDigits]
  refine or_congr ?_ (by simp)
  simp only [letter_iff, lower, List.mem_map]
  constructor
  · rintro ⟨c, hc, hletter⟩
    exact ⟨c.toLower, ⟨c, hc, rfl⟩, hletter⟩
  · rintro ⟨_, ⟨c, hc, rfl⟩, hletter⟩
    exact ⟨c, hc, hletter⟩

/-- Without a mark in front the other rules count. -/
theorem digitsAndBase_of_no_front (h : ¬ "0x".toList <+: lower t) :
    digitsAndBase t =
      if t.getLast? = some 'h' ∨ t.getLast? = some 'H' then (t.dropLast, 16)
      else if looksHexadecimal t then (t, 16)
      else (t, 10) := by
  rw [digitsAndBase.eq_def]
  split
  · exact absurd (front_iff.mpr ⟨_, _, rfl, .inl rfl⟩) h
  · exact absurd (front_iff.mpr ⟨_, _, rfl, .inr rfl⟩) h
  · rfl

theorem Based.digitsAndBase_eq (h : Based t digits base) : digitsAndBase t = (digits, base) := by
  cases h with
  | front hfront =>
    obtain ⟨x, rest, rfl, hx⟩ := front_iff.mp hfront
    rcases hx with rfl | rfl <;> rfl
  | behind hfront hbehind => rw [digitsAndBase_of_no_front hfront, if_pos (behind_iff.mp hbehind)]
  | bare hfront hbehind hdigits =>
    rw [digitsAndBase_of_no_front hfront, if_neg (mt behind_iff.mpr hbehind),
      if_pos (looksHexadecimal_iff.mpr hdigits)]
  | decimal hfront hbehind hdigits =>
    rw [digitsAndBase_of_no_front hfront, if_neg (mt behind_iff.mpr hbehind),
      if_neg (mt looksHexadecimal_iff.mp hdigits)]

theorem Based.base_le (h : Based t digits base) : base ≤ 16 := by
  cases h <;> decide

/-- Around the digits there are only the characters of the marks. -/
theorem Based.exists_append (h : Based t digits base) :
    ∃ front back, t = front ++ (digits ++ back) ∧ front ⊆ ['0', 'x', 'X'] ∧ back ⊆ ['h', 'H'] := by
  cases h with
  | front hfront =>
    obtain ⟨x, rest, rfl, hx⟩ := front_iff.mp hfront
    refine ⟨['0', x], [], by simp, ?_, List.nil_subset _⟩
    rcases hx with rfl | rfl <;> simp
  | behind hfront hbehind =>
    have hlast := behind_iff.mp hbehind
    rcases hlast with hlast | hlast
    · exact ⟨[], ['h'], (List.dropLast_append_getLast? _ hlast).symm, List.nil_subset _, by simp⟩
    · exact ⟨[], ['H'], (List.dropLast_append_getLast? _ hlast).symm, List.nil_subset _, by simp⟩
  | bare => exact ⟨[], [], by simp, List.nil_subset _, List.nil_subset _⟩
  | decimal => exact ⟨[], [], by simp, List.nil_subset _, List.nil_subset _⟩

theorem Based.count_eq (h : Based t digits base) {c : Char} (hc : c ∉ ['0', 'x', 'X', 'h', 'H']) :
    t.count c = digits.count c := by
  obtain ⟨front, back, rfl, hfront, hback⟩ := h.exists_append
  have hfrontNone : c ∉ front := fun hmem => hc (List.mem_append_left ['h', 'H'] (hfront hmem))
  have hbackNone : c ∉ back := fun hmem => hc (List.mem_append_right ['0', 'x', 'X'] (hback hmem))
  rw [List.count_append, List.count_append, List.count_eq_zero_of_not_mem hfrontNone,
    List.count_eq_zero_of_not_mem hbackNone, Nat.zero_add, Nat.add_zero]

/-- Letter case does not count for the base. -/
theorem Based.of_lower (h : Based t digits base) (hlower : lower u = lower t) :
    ∃ digits', Based u digits' base ∧ lower digits' = lower digits := by
  have hdigits : HasHexadecimalDigits u ↔ HasHexadecimalDigits t := by
    have hzero : ∀ t : Text, t.head? = some '0' ↔ (lower t).head? = some '0' := by
      intro t
      have hc : ∀ c : Char, c.toLower = '0' ↔ c = '0' := fun c =>
        Text.toLower_eq_iff (by decide) (by decide)
      cases t <;> simp [lower, hc]
    rw [HasHexadecimalDigits, HasHexadecimalDigits, hzero u, hzero t, ← Text.length_utf8_lower u,
      ← Text.length_utf8_lower t, hlower]
  cases h with
  | front hfront =>
    refine ⟨_, .front (hlower ▸ hfront), ?_⟩
    rw [lower, lower, List.map_drop, List.map_drop]
    exact congrArg (List.drop 2) hlower
  | behind hfront hbehind =>
    refine ⟨_, .behind (hlower ▸ hfront) (hlower ▸ hbehind), ?_⟩
    rw [lower, lower, List.map_dropLast, List.map_dropLast]
    exact congrArg List.dropLast hlower
  | bare hfront hbehind hhex =>
    exact ⟨u, .bare (hlower ▸ hfront) (hlower ▸ hbehind) (hdigits.mpr hhex), hlower⟩
  | decimal hfront hbehind hhex =>
    exact ⟨u, .decimal (hlower ▸ hfront) (hlower ▸ hbehind) (mt hdigits.mp hhex), hlower⟩

/-! ## Literals without quotes -/

variable {token : Text} {v : Int}

theorem inRange_iff : InRange v ↔ -2 ^ 63 ≤ v ∧ v ≤ 2 ^ 63 - 1 := Iff.rfl

theorem value?_eq_some (hquote : t.head? ≠ some '"') (h : Based t digits base) :
    value? t = some v ↔ Signed base digits v ∧ -2 ^ 63 ≤ v ∧ v ≤ 2 ^ 63 - 1 := by
  rw [value?.eq_def]
  split
  · exact absurd rfl hquote
  · rw [h.digitsAndBase_eq, Option.filter_eq_some_iff, Numeral.integer?_eq_some h.base_le,
      decide_eq_true_iff, inRange_iff]

theorem read_eq_ok : read token = .ok v ↔ value? (trim token) = some v := by
  rw [read]
  cases value? (trim token) <;> simp

/-- What has no value is refused by its text. -/
theorem read_of_no_value (h : ∀ v, read token ≠ .ok v) :
    read token = .error (.invalidLiteral (trim token)) := by
  cases hvalue : value? (trim token) with
  | some v => exact absurd (read_eq_ok.mpr hvalue) (h v)
  | none => rw [read, hvalue]

theorem lower_trim {token' : Text} (hlower : lower token' = lower token) :
    lower (trim token') = lower (trim token) := by
  rw [← Text.trim_lower, hlower, Text.trim_lower]

theorem head?_of_lower (hlower : lower u = lower t) (h : t.head? ≠ some '"') :
    u.head? ≠ some '"' := by
  intro hhead
  have hmap := congrArg List.head? hlower
  rw [lower, lower, List.head?_map, List.head?_map, hhead] at hmap
  obtain ⟨c, hc, hquote⟩ := Option.map_eq_some_iff.mp hmap.symm
  rw [Text.toLower_eq_quote.mp hquote] at hc
  exact h hc

theorem read_of_lower {token' : Text} (hquote : (trim token).head? ≠ some '"')
    (hlower : lower token' = lower token) (h : read token = .ok v) : read token' = .ok v := by
  obtain ⟨digits, base, hbased⟩ := exists_based (trim token)
  obtain ⟨digits', hbased', hdigits⟩ := hbased.of_lower (lower_trim hlower)
  rw [read_eq_ok, value?_eq_some hquote hbased] at h
  rw [read_eq_ok, value?_eq_some (head?_of_lower (lower_trim hlower) hquote) hbased']
  exact ⟨h.1.of_lower hdigits, h.2⟩

/-- What has a value holds only its marks, its sign and its digits. -/
theorem Based.mem_cases (h : Based t digits base) (hsigned : Signed base digits v) {c : Char}
    (hc : c ∈ t) :
    c ∈ ['0', 'x', 'X', 'h', 'H'] ∨ c = '-' ∨ (Numeral.digit? base c).isSome := by
  by_cases hmark : c ∈ ['0', 'x', 'X', 'h', 'H']
  · exact .inl hmark
  · have hmem : c ∈ digits := by
      rw [← List.count_pos_iff, ← h.count_eq hmark, List.count_pos_iff]
      exact hc
    by_cases hminus : c = '-'
    · exact .inr (.inl hminus)
    · exact .inr (.inr (hsigned.digit_of_mem h.base_le hmem hminus))

theorem Based.isBlank_of_mem (h : Based t digits base) (hsigned : Signed base digits v) {c : Char}
    (hc : c ∈ t) : isBlank c = false := by
  rcases h.mem_cases hsigned hc with hmark | rfl | hdigit
  · exact Text.no_blank_of_all (by decide) c hmark
  · rfl
  · exact Numeral.isBlank_of_digit h.base_le hdigit

theorem Based.plus_notMem (h : Based t digits base) (hsigned : Signed base digits v) : '+' ∉ t := by
  intro hmem
  rcases h.mem_cases hsigned hmem with hmark | hminus | hdigit
  · exact absurd hmark (by decide)
  · exact absurd hminus (by decide)
  · simp [Numeral.digit?] at hdigit

/-- Let a token not start with a quote.  Its text has digits and a base, and no others.  The token
has a value if and only if that is the number, of 64 bits with a sign, for which the digits stand
after a minus sign or not; and if there is none, the token is refused by its text.  In particular
this is so for a plus sign, a blank, two signs, a sign alone, and a number that needs more bits.
The value does not depend on letter case. -/
theorem read_by_grammar (token : Text) (hquote : (trim token).head? ≠ some '"') :
    (∃! number : Text × Nat, Based (trim token) number.1 number.2) ∧
    (∀ digits base, Based (trim token) digits base →
      (∀ v, read token = .ok v ↔ Signed base digits v ∧ -2 ^ 63 ≤ v ∧ v ≤ 2 ^ 63 - 1) ∧
      ((¬ ∃ v, Signed base digits v ∧ -2 ^ 63 ≤ v ∧ v ≤ 2 ^ 63 - 1) →
        read token = .error (.invalidLiteral (trim token))) ∧
      ('+' ∈ trim token ∨ (∃ c ∈ trim token, isBlank c = true) ∨ 1 < (trim token).count '-' ∨
          digits = ['-'] ∨ (∃ v, Signed base digits v ∧ ¬ (-2 ^ 63 ≤ v ∧ v ≤ 2 ^ 63 - 1)) →
        read token = .error (.invalidLiteral (trim token)))) ∧
    ∀ token', lower token' = lower token → ∀ v, read token' = .ok v ↔ read token = .ok v := by
  have hread : ∀ {digits base}, Based (trim token) digits base → ∀ v,
      read token = .ok v ↔ Signed base digits v ∧ -2 ^ 63 ≤ v ∧ v ≤ 2 ^ 63 - 1 :=
    fun hbased v => read_eq_ok.trans (value?_eq_some hquote hbased)
  refine ⟨?_, fun digits base hbased => ⟨hread hbased, fun hnone => ?_, fun hbad => ?_⟩,
    fun token' hlower v => ⟨fun h => ?_, fun h => read_of_lower hquote hlower h⟩⟩
  · obtain ⟨digits, base, hbased⟩ := exists_based (trim token)
    refine ⟨(digits, base), hbased, fun number hnumber => ?_⟩
    exact hnumber.digitsAndBase_eq.symm.trans hbased.digitsAndBase_eq
  · exact read_of_no_value fun v hv => hnone ⟨v, (hread hbased v).mp hv⟩
  · refine read_of_no_value fun v hv => ?_
    obtain ⟨hsigned, hrange⟩ := (hread hbased v).mp hv
    rcases hbad with hplus | ⟨c, hc, hblank⟩ | hminus | hlone | ⟨v', hsigned', hout⟩
    · exact hbased.plus_notMem hsigned hplus
    · rw [hbased.isBlank_of_mem hsigned hc] at hblank
      cases hblank
    · rw [hbased.count_eq (by decide)] at hminus
      have hone := hsigned.minus_count hbased.base_le
      omega
    · exact hsigned.ne_minus hbased.base_le hlone
    · exact hout (hsigned'.unique hbased.base_le hsigned ▸ hrange)
  · exact read_of_lower (head?_of_lower (lower_trim hlower) hquote) hlower.symm h

/-- The least number of 64 bits, with its sign behind the mark of its base. -/
def leastLiteral : Text := "\t0X-8000000000000000 ".toList

/-- The sign belongs to the digits, letter case does not count, and the opposite number does not
fit. -/
theorem leastLiteral_read :
    Based (trim leastLiteral) "-8000000000000000".toList 16 ∧
    read leastLiteral = .ok (-2 ^ 63) ∧ Signed 16 "-8000000000000000".toList (-2 ^ 63) ∧
    read "\t0x-8000000000000000 ".toList = .ok (-2 ^ 63) ∧
    read "8000000000000000h".toList = .error (.invalidLiteral "8000000000000000h".toList) := by
  have hbased : Based (trim leastLiteral) "-8000000000000000".toList 16 := .front (by decide)
  have hread : read leastLiteral = .ok (-2 ^ 63) := by decide
  obtain ⟨-, hgrammar, hcase⟩ := read_by_grammar leastLiteral (by decide)
  refine ⟨hbased, hread, (((hgrammar _ _ hbased).1 _).mp hread).1,
    (hcase _ (by decide) _).mpr hread, ?_⟩
  have hopposite : Signed 16 "8000000000000000".toList (2 ^ 63) :=
    (Numeral.integer?_eq_some (by decide)).mp (by decide)
  obtain ⟨-, hgrammar', -⟩ := read_by_grammar "8000000000000000h".toList (by decide)
  refine (hgrammar' _ _ (.behind (by decide) (by decide))).2.2 (.inr (.inr (.inr (.inr ?_))))
  exact ⟨2 ^ 63, hopposite, by decide⟩

end Literal

end Z80
