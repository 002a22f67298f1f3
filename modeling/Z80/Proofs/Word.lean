import Z80.Word
import Mathlib.Data.Int.ModEq

/-!
# Numbers and their bytes

What the bytes of a number stand for: little-endian bytes give the number back modulo a power of
256, an address is the number it was made from, and a displacement is one byte in two's complement.
-/

namespace Z80

/-! ## Bytes -/

@[simp] theorem toNat_byte_ofInt (value : Int) :
    ((UInt8.ofInt value).toNat : Int) = value % 256 := by
  have hpos : 0 ≤ value % 256 := Int.emod_nonneg value (by decide)
  have hlt : value % 256 < 256 := Int.emod_lt_of_pos value (by decide)
  rw [UInt8.ofInt, UInt8.toNat_ofNat']
  omega

@[simp] theorem byte_ofInt_toNat (b : UInt8) : UInt8.ofInt b.toNat = b := by
  have hbyte := toNat_byte_ofInt b.toNat
  have hlt := b.toNat_lt
  exact UInt8.toNat_inj.mp (by omega)

/-- A byte in two's complement is the number it was made from, if that number fits. -/
theorem toInt_byte_ofInt {value : Int} (hlo : -128 ≤ value) (hhi : value ≤ 127) :
    (UInt8.ofInt value).toInt8.toInt = value := by
  have hbyte : ((UInt8.ofInt value).toNat : Int) = value % 256 := toNat_byte_ofInt value
  change (UInt8.ofInt value).toBitVec.toInt = value
  rw [BitVec.toInt_eq_toNat_cond, UInt8.toNat_toBitVec]
  split <;> omega

theorem byte_ofInt_of_modEq {value value' : Int} (h : value ≡ value' [ZMOD 256]) :
    UInt8.ofInt value = UInt8.ofInt value' := by
  have hbyte := toNat_byte_ofInt value
  have hbyte' := toNat_byte_ofInt value'
  rw [Int.ModEq] at h
  exact UInt8.toNat_inj.mp (by omega)

/-- A byte is made from the number that it stands for in two's complement. -/
@[simp] theorem byte_ofInt_toInt (b : UInt8) : UInt8.ofInt b.toInt8.toInt = b := by
  have hmod : b.toInt8.toInt ≡ b.toNat [ZMOD 256] := by
    change b.toBitVec.toInt % 256 = _
    rw [BitVec.toInt_eq_toNat_cond, UInt8.toNat_toBitVec]
    split <;> omega
  rw [byte_ofInt_of_modEq hmod, byte_ofInt_toNat]

/-! ## Little-endian numbers -/

/-- The number that bytes stand for, the lowest first. -/
def ofLittleEndian : List UInt8 → Nat
  | [] => 0
  | b :: rest => b.toNat + 256 * ofLittleEndian rest

@[simp] theorem length_littleEndian (n : Nat) (value : Int) :
    (littleEndian n value).length = n := by
  induction n generalizing value with
  | zero => rfl
  | succ n ih => rw [littleEndian, List.length_cons, ih]

@[simp] theorem littleEndian_of_zero (n : Nat) : littleEndian n 0 = List.replicate n 0 := by
  induction n with
  | zero => rfl
  | succ n ih =>
    rw [littleEndian, List.replicate_succ]
    exact congrArg (List.cons 0) ih

/-- The bytes of a number stand for its remainder. -/
@[simp] theorem ofLittleEndian_littleEndian (n : Nat) (value : Int) :
    (ofLittleEndian (littleEndian n value) : Int) = value % 256 ^ n := by
  induction n generalizing value with
  | zero => exact (Int.emod_one value).symm
  | succ n ih =>
    have hlow : value / 256 % 256 ^ n = value / 256 - 256 ^ n * (value / 256 / 256 ^ n) :=
      Int.emod_def _ _
    have hhigh : value / 256 / 256 ^ n = value / (256 * 256 ^ n) :=
      Int.ediv_ediv_of_nonneg (by decide)
    rw [littleEndian, ofLittleEndian, Nat.cast_add, Nat.cast_mul, Nat.cast_ofNat, toNat_byte_ofInt,
      ih, pow_succ', Int.emod_def value (256 * 256 ^ n), ← hhigh, hlow, Int.emod_def value 256,
      Int.mul_sub, ← Int.mul_assoc]
    omega

/-- Numbers with the same bytes have the same remainder. -/
theorem modEq_of_littleEndian_eq {n : Nat} {value value' : Int}
    (h : littleEndian n value = littleEndian n value') : value ≡ value' [ZMOD 256 ^ n] := by
  rw [Int.ModEq, ← ofLittleEndian_littleEndian, ← ofLittleEndian_littleEndian, h]

/-- Numbers with the same remainder have the same bytes. -/
theorem littleEndian_of_modEq {n : Nat} {value value' : Int} (h : value ≡ value' [ZMOD 256 ^ n]) :
    littleEndian n value = littleEndian n value' := by
  induction n generalizing value value' with
  | zero => rfl
  | succ n ih =>
    rw [pow_succ'] at h
    obtain ⟨k, hk⟩ := h.symm.dvd
    have hvalue : value = value' + 256 * (256 ^ n * k) := by
      rw [← Int.mul_assoc, ← hk]
      omega
    have hhigh : value / 256 = value' / 256 + 256 ^ n * k := by
      rw [hvalue, Int.add_mul_ediv_left _ _ (by decide)]
    rw [littleEndian, littleEndian, byte_ofInt_of_modEq (h.of_mul_right _)]
    refine congrArg _ (ih ?_)
    rw [Int.ModEq, hhigh, Int.add_mul_emod_self_left]

@[simp] theorem littleEndian_ofLittleEndian (bytes : List UInt8) :
    littleEndian bytes.length (ofLittleEndian bytes) = bytes := by
  induction bytes with
  | nil => rfl
  | cons b rest ih =>
    have hlt := b.toNat_lt
    have hlow : ((ofLittleEndian (b :: rest) : Nat) : Int) ≡ b.toNat [ZMOD 256] := by
      rw [ofLittleEndian, Int.ModEq]
      omega
    have hhigh : ((ofLittleEndian (b :: rest) : Nat) : Int) / 256 = ofLittleEndian rest := by
      rw [ofLittleEndian]
      omega
    rw [List.length_cons, littleEndian, hhigh, ih, byte_ofInt_of_modEq hlow, byte_ofInt_toNat]

/-- The bytes of a number are the only ones of their length that stand for it. -/
theorem eq_littleEndian_iff {n : Nat} {value : Int} {bytes : List UInt8} :
    bytes = littleEndian n value ↔
      bytes.length = n ∧ (ofLittleEndian bytes : Int) ≡ value [ZMOD 256 ^ n] := by
  constructor
  · rintro rfl
    refine ⟨length_littleEndian n value, ?_⟩
    rw [ofLittleEndian_littleEndian]
    exact Int.mod_modEq _ _
  · rintro ⟨rfl, hvalue⟩
    rw [← littleEndian_of_modEq hvalue, littleEndian_ofLittleEndian]

/-! ## Widths -/

/-- A width of bytes is a power of two in bits. -/
theorem Width.two_pow_bits (w : Width) : (2 : Int) ^ w.bits = 256 ^ w.size := by
  rw [Width.bits, pow_mul]
  rfl

theorem Width.fits_iff {w : Width} {value : Int} :
    w.Fits value ↔ -2 ^ (w.bits - 1) ≤ value ∧ value ≤ 2 ^ w.bits - 1 := by
  cases w <;> exact Iff.rfl

theorem Width.encode_eq_ok {w : Width} {value : Int} {bytes : List UInt8}
    (h : w.encode value = .ok bytes) : w.Fits value ∧ bytes = littleEndian w.size value := by
  rw [Width.encode] at h
  split at h
  · next hfits => exact ⟨hfits, (Except.ok.inj h).symm⟩
  · cases h

/-! ## Addresses and displacements -/

theorem address?_eq_some {value : Int} {a : Address} (h : address? value = some a) :
    (a.toNat : Int) = value ∧ value ≤ 65535 := by
  rw [address?] at h
  split at h
  · next hrange =>
    obtain ⟨hlo, hhi⟩ := hrange
    rw [← Option.some.inj h, UInt16.ofInt, UInt16.toNat_ofNat']
    refine ⟨?_, by omega⟩
    omega
  · cases h

theorem displacement?_eq_some {distance : Int} {b : UInt8} (h : displacement? distance = some b) :
    b.toInt8.toInt = distance := by
  rw [displacement?] at h
  split at h
  · next hrange =>
    rw [← Option.some.inj h]
    exact toInt_byte_ofInt hrange.1 hrange.2
  · cases h

/-- A displacement is the byte that stands for it in two's complement. -/
theorem displacement?_eq_some_iff {distance : Int} {b : UInt8} :
    displacement? distance = some b ↔ b.toInt8.toInt = distance := by
  refine ⟨displacement?_eq_some, ?_⟩
  rintro rfl
  have hle := b.toInt8.le_toInt
  have hlt := b.toInt8.toInt_lt
  rw [displacement?, if_pos (by omega), byte_ofInt_toInt]

/-- The two bytes of an address. -/
theorem littleEndian_address (a : Address) :
    ∃ lo hi : UInt8, littleEndian 2 a.toNat = [lo, hi] ∧ lo.toNat + 256 * hi.toNat = a.toNat := by
  refine ⟨_, _, rfl, ?_⟩
  have hlow := toNat_byte_ofInt a.toNat
  have hhigh := toNat_byte_ofInt (a.toNat / 256)
  have hlt := a.toNat_lt
  omega

end Z80
