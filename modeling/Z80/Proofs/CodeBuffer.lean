import Z80.Assembly

/-!
# Code buffers, byte by byte

A patch writes the bytes of its range and leaves every other byte and the size as they are.
-/

namespace Z80

namespace CodeBuffer

theorem toList_injective : Function.Injective toList := by
  rintro ⟨data⟩ ⟨data'⟩ h
  exact congrArg CodeBuffer.mk (Array.toList_inj.mp h)

/-! ## Overwriting -/

@[simp] theorem size_overwrite (data : Array UInt8) (position : Nat) (bytes : List UInt8) :
    (overwrite data position bytes).size = data.size := by
  induction bytes generalizing data position with
  | nil => rfl
  | cons b rest ih => rw [overwrite, ih, Array.size_setIfInBounds]

theorem getElem?_overwrite {data : Array UInt8} {position : Nat} {bytes : List UInt8}
    (h : position + bytes.length ≤ data.size) (i : Nat) :
    (overwrite data position bytes)[i]? =
      if position ≤ i ∧ i < position + bytes.length then bytes[i - position]? else data[i]? := by
  induction bytes generalizing data position with
  | nil => rw [overwrite, if_neg (by simp only [List.length_nil]; omega)]
  | cons b rest ih =>
    rw [List.length_cons] at h
    rw [overwrite, ih (by rw [Array.size_setIfInBounds]; omega), Array.getElem?_setIfInBounds]
    by_cases hi : i = position
    · subst hi
      rw [if_neg (by omega), if_pos rfl, if_pos (by omega), if_pos (by simp), Nat.sub_self]
      rfl
    · rw [if_neg (Ne.symm hi), List.length_cons]
      by_cases hin : position + 1 ≤ i ∧ i < position + 1 + rest.length
      · have hsub : i - position = (i - (position + 1)) + 1 := by omega
        rw [if_pos hin, if_pos (by omega), hsub, List.getElem?_cons_succ]
      · rw [if_neg hin, if_neg (by omega)]

/-! ## Patches -/

variable {code code' : CodeBuffer} {position : Nat} {bytes : List UInt8}

/-- A patch inside the code succeeds. -/
theorem patch_eq_ok (h : position + bytes.length ≤ code.size) :
    code.patch position bytes = .ok ⟨overwrite code.data position bytes⟩ := if_pos h

theorem le_size_of_patch (h : code.patch position bytes = .ok code') :
    position + bytes.length ≤ code.size := by
  rw [patch] at h
  split at h
  · assumption
  · cases h

theorem size_patch (h : code.patch position bytes = .ok code') : code'.size = code.size := by
  rw [patch_eq_ok (le_size_of_patch h)] at h
  cases h
  exact size_overwrite code.data position bytes

/-- A patch changes the bytes of its range and no others. -/
theorem getElem?_patch (h : code.patch position bytes = .ok code') (i : Nat) :
    code'.toList[i]? =
      if position ≤ i ∧ i < position + bytes.length then bytes[i - position]?
      else code.toList[i]? := by
  have hle := le_size_of_patch h
  rw [patch_eq_ok hle] at h
  cases h
  simpa only [toList, Array.getElem?_toList] using getElem?_overwrite hle i

/-- A patch is put between what stands before its range and what stands after it. -/
theorem toList_patch (h : code.patch position bytes = .ok code') :
    code'.toList = code.toList.take position ++ bytes ++
      code.toList.drop (position + bytes.length) := by
  have hle : position + bytes.length ≤ code.toList.length := le_size_of_patch h
  have htake : (code.toList.take position).length = position := List.length_take_of_le (by omega)
  apply List.ext_getElem?
  intro i
  rw [getElem?_patch h, List.append_assoc]
  by_cases hbefore : i < position
  · rw [if_neg (by omega), List.getElem?_append_left (by omega), List.getElem?_take_of_lt hbefore]
  · rw [List.getElem?_append_right (by omega), htake]
    by_cases hinside : i < position + bytes.length
    · rw [if_pos (by omega), List.getElem?_append_left (by omega)]
    · rw [if_neg (by omega), List.getElem?_append_right (by omega), List.getElem?_drop]
      exact congrArg _ (by omega)

/-! ### Positions of 64 bits -/

/-- The end of a range, or the last position if the range goes beyond it. -/
def saturatingEnd (position : UInt64) (length : Nat) : UInt64 :=
  .ofNat (min (position.toNat + length) (UInt64.size - 1))

@[simp] theorem toNat_saturatingEnd (position : UInt64) (length : Nat) :
    (saturatingEnd position length).toNat = min (position.toNat + length) (UInt64.size - 1) := by
  have hlt : min (position.toNat + length) (UInt64.size - 1) < UInt64.size := by
    have hsize : 0 < UInt64.size := by decide
    omega
  exact UInt64.toNat_ofNat_of_lt' hlt

/-- Code that does not reach the last position does not hold a range that was cut off there, so the
test with the end of the range is the test of a patch. -/
theorem patch_saturating (hsize : code.size < UInt64.size - 1) (position : UInt64)
    (bytes : List UInt8) :
    (∃ code', code.patch position.toNat bytes = .ok code') ↔
      position ≤ saturatingEnd position bytes.length ∧
        (saturatingEnd position bytes.length).toNat ≤ code.size := by
  have hposition : position.toNat < UInt64.size := position.toNat_lt
  rw [UInt64.le_iff_toNat_le, toNat_saturatingEnd]
  constructor
  · rintro ⟨code', h⟩
    have hle := le_size_of_patch h
    omega
  · rintro ⟨-, hle⟩
    exact ⟨_, patch_eq_ok (by omega)⟩

/-! ## Slices -/

theorem slice?_eq_some {length : Nat} (h : position + length ≤ code.size) :
    code.slice? position length = some ((code.toList.drop position).take length) := by
  rw [slice?, if_pos h, Array.toList_extract, List.extract_eq_take_drop, Nat.add_sub_cancel_left]
  rfl

end CodeBuffer

/-- The bytes of an entry inside the code. -/
theorem Assembly.bytesOf_eq {asm : Assembly} {e : Entry}
    (h : e.position + e.length ≤ asm.code.size) :
    asm.bytesOf e = (asm.code.toList.drop e.position).take e.length := by
  rw [bytesOf, CodeBuffer.slice?_eq_some h, Option.getD_some]

end Z80
