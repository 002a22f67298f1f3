import Mathlib.Tactic.IntervalCases
import Z80.Literal
import Z80.Proofs.Text

/-!
# Numerals

A number written in some base is read back in that base, and one written in decimal does not look
hexadecimal.  A dump shows two digits for each byte, and the dumps of parts make up the dump of the
whole.
-/

namespace Z80

namespace Numeral

theorem digit?_digitChar {base d : Nat} (hd : d < base) (hbase : base ≤ 16) :
    digit? base d.digitChar = some d := by
  have hlt : d < 16 := by omega
  interval_cases d <;> exact if_pos hd

theorem digitsFrom?_append (base value : Nat) (a b : Text) :
    digitsFrom? base value (a ++ b) =
      (digitsFrom? base value a).bind fun middle => digitsFrom? base middle b := by
  induction a generalizing value with
  | nil => rfl
  | cons c a ih =>
    rw [List.cons_append, digitsFrom?, digitsFrom?]
    cases digit? base c with
    | none => rfl
    | some d => exact ih _

/-- The digits of a number stand for it. -/
theorem digitsFrom?_toDigits {base : Nat} (hbase : 1 < base) (hle : base ≤ 16) (n : Nat) :
    digitsFrom? base 0 (Nat.toDigits base n) = some n := by
  induction n using Nat.strongRecOn with
  | _ n ih =>
    rw [Nat.toDigits_eq_if hbase]
    split
    · next hlt =>
      rw [digitsFrom?, digit?_digitChar hlt hle, Nat.zero_mul]
      exact congrArg some (Nat.zero_add n)
    · next hge =>
      have hmod : n % base < base := Nat.mod_lt _ (by omega)
      rw [digitsFrom?_append, ih (n / base) (Nat.div_lt_self (by omega) hbase), Option.bind_some,
        digitsFrom?, digit?_digitChar hmod hle]
      exact congrArg some (Nat.div_add_mod' n base)

theorem natural?_toDigits {base : Nat} (hbase : 1 < base) (hle : base ≤ 16) (n : Nat) :
    natural? base (Nat.toDigits base n) = some n := by
  rw [natural?, if_neg (by simp), digitsFrom?_toDigits hbase hle]

theorem exists_of_mem_toDigits {base n : Nat} (hbase : 1 < base) {c : Char}
    (h : c ∈ Nat.toDigits base n) :
    ∃ d < base, c = d.digitChar := by
  induction n using Nat.strongRecOn with
  | _ n ih =>
    rw [Nat.toDigits_eq_if hbase] at h
    split at h
    · next hlt => exact ⟨n, hlt, List.mem_singleton.mp h⟩
    · next hge =>
      rcases List.mem_append.mp h with h | h
      · exact ih (n / base) (Nat.div_lt_self (by omega) hbase) h
      · exact ⟨n % base, Nat.mod_lt _ (by omega), List.mem_singleton.mp h⟩

/-! ## Decimals -/

theorem isDigit_of_mem_decimal {n : Nat} {c : Char} (h : c ∈ decimal n) : c.isDigit = true :=
  Nat.isDigit_of_mem_toDigits (by decide) (by decide) h

theorem isBlank_of_mem_decimal {n : Nat} {c : Char} (h : c ∈ decimal n) :
    Text.isBlank c = false := by
  obtain ⟨hlow, hhigh⟩ := Char.isDigit_iff_toNat.mp (isDigit_of_mem_decimal h)
  change 48 ≤ c.toNat at hlow
  change c.toNat ≤ 57 at hhigh
  exact Text.isBlank_of_printable (by omega) (by omega)

theorem notMem_decimal {n : Nat} {c : Char} (h : c.isDigit = false) : c ∉ decimal n := by
  intro hmem
  rw [isDigit_of_mem_decimal hmem] at h
  cases h

/-- Only zero is written with a zero at the start. -/
theorem head?_decimal_ne_zero {n : Nat} (hn : n ≠ 0) : (decimal n).head? ≠ some '0' := by
  induction n using Nat.strongRecOn with
  | _ n ih =>
    rw [decimal, Nat.toDigits_eq_if (by decide)]
    split
    · next hlt => interval_cases n <;> simp_all
    · next hge =>
      rw [List.head?_append_of_ne_nil _ Nat.toDigits_ne_nil]
      exact ih (n / 10) (by omega) (by omega)

/-! ## Dumps -/

/-- What is read as digits holds nothing else. -/
theorem isSome_digit?_of_mem {base value n : Nat} {t : Text} (h : digitsFrom? base value t = some n)
    {c : Char} (hc : c ∈ t) : (digit? base c).isSome := by
  induction t generalizing value with
  | nil => cases hc
  | cons c' rest ih =>
    rw [digitsFrom?] at h
    obtain ⟨d, hd, hrest⟩ := Option.bind_eq_some_iff.mp h
    rcases List.mem_cons.mp hc with rfl | hc
    · exact Option.isSome_of_mem hd
    · exact ih hrest hc

theorem space_notMem_hex (width n : Nat) : ' ' ∉ hex width n := by
  intro hmem
  rw [hex, List.leftpad, List.mem_append, List.mem_replicate] at hmem
  rcases hmem with ⟨-, hzero⟩ | hmem
  · cases hzero
  · have hdigit := isSome_digit?_of_mem (digitsFrom?_toDigits (by decide) (by decide) n) hmem
    cases hdigit

@[simp] theorem length_hex_byte (b : UInt8) : (hex 2 b.toNat).length = 2 := by
  have hle : (Nat.toDigits 16 b.toNat).length ≤ 2 :=
    (Nat.length_toDigits_le_iff (by decide) (by decide)).mpr b.toNat_lt
  rw [hex, List.length_leftpad]
  omega

@[simp]
theorem hexDump_singleton (b : UInt8) : hexDump [b] = hex 2 b.toNat := List.intercalate_singleton

theorem hexDump_cons (b : UInt8) {bytes : List UInt8} (h : bytes ≠ []) :
    hexDump (b :: bytes) = hex 2 b.toNat ++ ' ' :: hexDump bytes := by
  rw [hexDump, List.map_cons, List.intercalate_cons_of_ne_nil (by simpa using h), List.append_assoc]
  rfl

theorem hexDump_append {bytes bytes' : List UInt8} (h : bytes ≠ []) (h' : bytes' ≠ []) :
    hexDump (bytes ++ bytes') = hexDump bytes ++ ' ' :: hexDump bytes' := by
  induction bytes with
  | nil => exact absurd rfl h
  | cons b rest ih =>
    by_cases hrest : rest = []
    · subst hrest
      rw [List.singleton_append, hexDump_cons b h', hexDump_singleton]
    · rw [List.cons_append, hexDump_cons b (List.append_ne_nil_of_left_ne_nil hrest _), ih hrest,
        hexDump_cons b hrest, List.append_assoc]
      rfl

/-- The dumps of parts, with spaces between them, are the dump of the whole, if no part is empty. -/
theorem intercalate_hexDump {parts : List (List UInt8)} (h : ∀ bytes ∈ parts, bytes ≠ []) :
    List.intercalate [' '] (parts.map hexDump) = hexDump parts.flatten := by
  induction parts with
  | nil => rfl
  | cons bytes rest ih =>
    obtain ⟨hfirst, hrest⟩ := List.forall_mem_cons.mp h
    cases rest with
    | nil =>
      rw [List.map_singleton, List.intercalate_singleton, List.flatten_cons, List.flatten_nil,
        List.append_nil]
    | cons bytes' rest =>
      have hflatten : (bytes' :: rest).flatten ≠ [] :=
        List.append_ne_nil_of_left_ne_nil (hrest bytes' List.mem_cons_self) _
      rw [List.map_cons, List.intercalate_cons_of_ne_nil (by simp), ih hrest, List.append_assoc]
      exact (hexDump_append hfirst hflatten).symm

/-- A dump has two digits for each byte. -/
theorem length_digits_hexDump (bytes : List UInt8) :
    ((hexDump bytes).filter (· ≠ ' ')).length = 2 * bytes.length := by
  have hdigits : ∀ b : UInt8, (hex 2 b.toNat).filter (· ≠ ' ') = hex 2 b.toNat := fun b =>
    List.filter_eq_self.mpr fun c hc =>
      decide_eq_true fun hspace => space_notMem_hex 2 b.toNat (hspace ▸ hc)
  induction bytes with
  | nil => rfl
  | cons b rest ih =>
    by_cases hrest : rest = []
    · subst hrest
      rw [hexDump_singleton, hdigits, length_hex_byte]
      rfl
    · rw [hexDump_cons b hrest, List.filter_append, hdigits, List.filter_cons_of_neg (by decide),
        List.length_append, length_hex_byte, ih, List.length_cons]
      omega

end Numeral

namespace Literal

@[simp]
theorem looksHexadecimal_decimal (n : Nat) : looksHexadecimal (Numeral.decimal n) = false := by
  rw [looksHexadecimal, Bool.or_eq_false_iff]
  constructor
  · rw [List.any_eq_false]
    intro c hc
    rw [Numeral.isDigit_of_mem_decimal hc, Bool.not_true, Bool.and_false]
    exact Bool.false_ne_true
  · by_cases hn : n = 0
    · subst hn
      decide +kernel
    · rw [beq_false_of_ne (Numeral.head?_decimal_ne_zero hn), Bool.and_false]

end Literal

end Z80
