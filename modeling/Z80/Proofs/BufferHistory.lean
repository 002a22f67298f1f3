import Mathlib.Data.List.Induction
import Z80.Proofs.CodeBuffer
import Z80.Proofs.Word

/-!
# Histories of a code buffer

Code is made by calls that append bytes or patch one byte or one word.  What the code is after any
calls is told by the calls alone: its size is the number of bytes emitted, a patch is made if its
range lies inside that size, and each byte has the value that the last call to reach it gave it.
-/

namespace Z80.CodeBuffer

/-! ## Calls -/

/-- A call that changes code.  A position may be any number, and nothing wraps around. -/
inductive Call where
  | emit (bytes : List UInt8)
  | patchByte (position : Nat) (value : UInt8)
  | patchWord (position : Nat) (value : UInt16)
  deriving DecidableEq

/-- What a call gives back: where the bytes emitted start, or whether a patch was made. -/
inductive Answer where
  | site (position : Nat)
  | patched
  | refused (fault : Fault)
  deriving DecidableEq

/-- The code after a patch, which is the code before it if the patch is refused. -/
def settle (code : CodeBuffer) : Except Fault CodeBuffer → CodeBuffer × Answer
  | .ok code' => (code', .patched)
  | .error fault => (code, .refused fault)

/-- The code after a call, and what the call gives back. -/
def call (code : CodeBuffer) : Call → CodeBuffer × Answer
  | .emit bytes => (code.emit bytes, .site code.size)
  | .patchByte position value => code.settle (code.patch position [value])
  | .patchWord position value => code.settle (code.patch position (littleEndian 2 value.toNat))

/-- The code that calls make, one after the other. -/
def after (calls : List Call) : CodeBuffer := calls.foldl (fun code c => (code.call c).1) empty

namespace Call

/-- The position and the number of bytes of a patch. -/
def range? : Call → Option (Nat × Nat)
  | emit _ => none
  | patchByte position _ => some (position, 1)
  | patchWord position _ => some (position, 2)

/-- The number of bytes that a call appends. -/
def growth : Call → Nat
  | emit bytes => bytes.length
  | _ => 0

/-- The call gives the byte at `i` the value `b`, in code of the given size.  A patch that reaches
beyond the code gives nothing, and a word has its low byte first. -/
def Gives (size i : Nat) (b : UInt8) : Call → Prop
  | emit bytes => size ≤ i ∧ bytes[i - size]? = some b
  | patchByte position value => position + 1 ≤ size ∧ i = position ∧ b = value
  | patchWord position value => position + 2 ≤ size ∧
      (i = position ∧ b.toNat = value.toNat % 256 ∨ i = position + 1 ∧ b.toNat = value.toNat / 256)

end Call

/-- The number of bytes that calls append. -/
def emitted (calls : List Call) : Nat := (calls.map Call.growth).sum

/-- The last of the calls to give the byte at `i` a value gives it the value `b`. -/
def LastGiven (calls : List Call) (i : Nat) (b : UInt8) : Prop :=
  ∃ before c later, calls = before ++ c :: later ∧ c.Gives (emitted before) i b ∧
    ∀ middle c' rest b', later = middle ++ c' :: rest →
      ¬ c'.Gives (emitted (before ++ c :: middle)) i b'

variable {code : CodeBuffer} {position size i : Nat} {bytes : List UInt8} {b : UInt8} {c : Call}
  {calls : List Call}

/-! ## One call -/

theorem settle_patch_of_le (h : position + bytes.length ≤ code.size) :
    code.settle (code.patch position bytes) = (⟨overwrite code.data position bytes⟩, .patched) := by
  rw [patch_eq_ok h]
  rfl

theorem settle_patch_of_not_le (h : ¬ position + bytes.length ≤ code.size) :
    code.settle (code.patch position bytes) =
      (code, .refused (.patchOutOfBounds position code.size)) := by
  rw [patch, if_neg h]
  rfl

@[simp] theorem size_settle_patch (code : CodeBuffer) (position : Nat) (bytes : List UInt8) :
    (code.settle (code.patch position bytes)).1.size = code.size := by
  by_cases h : position + bytes.length ≤ code.size
  · rw [settle_patch_of_le h]
    exact size_overwrite code.data position bytes
  · rw [settle_patch_of_not_le h]

@[simp]
theorem size_call (code : CodeBuffer) (c : Call) : (code.call c).1.size = code.size + c.growth := by
  cases c with
  | emit bytes => exact size_emit code bytes
  | patchByte position value => exact size_settle_patch code position [value]
  | patchWord position value => exact size_settle_patch code position _

/-- A patch gives values to the bytes of its range if that lies inside the code. -/
theorem getElem?_settle_patch {gives : UInt8 → Prop}
    (hgives : ∀ b, gives b ↔
      position + bytes.length ≤ code.size ∧ position ≤ i ∧ bytes[i - position]? = some b) :
    (code.settle (code.patch position bytes)).1.toList[i]? = some b ↔
      gives b ∨ (∀ b', ¬ gives b') ∧ code.toList[i]? = some b := by
  simp only [hgives]
  by_cases hle : position + bytes.length ≤ code.size
  · rw [settle_patch_of_le hle, getElem?_patch (patch_eq_ok hle)]
    by_cases hin : position ≤ i ∧ i < position + bytes.length
    · obtain ⟨given, hgiven⟩ : ∃ given, bytes[i - position]? = some given :=
        ⟨_, List.getElem?_eq_getElem (by omega)⟩
      rw [if_pos hin]
      constructor
      · exact fun h => .inl ⟨hle, hin.1, h⟩
      · rintro (⟨-, -, h⟩ | ⟨hnone, -⟩)
        · exact h
        · exact absurd ⟨hle, hin.1, hgiven⟩ (hnone given)
    · have hnone : ∀ b', ¬ (position + bytes.length ≤ code.size ∧ position ≤ i ∧
          bytes[i - position]? = some b') := by
        rintro b' ⟨-, hlow, hb'⟩
        obtain ⟨hlt, -⟩ := List.getElem?_eq_some_iff.mp hb'
        omega
      rw [if_neg hin, or_iff_right (hnone b)]
      exact ⟨fun h => ⟨hnone, h⟩, fun h => h.2⟩
  · rw [settle_patch_of_not_le hle]
    simp [hle]

namespace Call

theorem gives_patchByte {value : UInt8} :
    (patchByte position value).Gives size i b ↔
      position + [value].length ≤ size ∧ position ≤ i ∧ [value][i - position]? = some b := by
  rw [Gives, List.length_singleton, List.getElem?_singleton]
  refine and_congr_right fun _ => ?_
  grind

theorem gives_patchWord {value : UInt16} :
    (patchWord position value).Gives size i b ↔
      position + (littleEndian 2 value.toNat).length ≤ size ∧ position ≤ i ∧
        (littleEndian 2 value.toNat)[i - position]? = some b := by
  obtain ⟨low, high, hbytes, hvalue⟩ := littleEndian_address value
  have hlow := low.toNat_lt
  have hhigh := high.toNat_lt
  have hlowByte : b.toNat = value.toNat % 256 ↔ b = low := by
    rw [← UInt8.toNat_inj]
    omega
  have hhighByte : b.toNat = value.toNat / 256 ↔ b = high := by
    rw [← UInt8.toNat_inj]
    omega
  rw [Gives, hlowByte, hhighByte, length_littleEndian, hbytes]
  refine and_congr_right fun _ => ?_
  grind

end Call

/-- A call gives its bytes their values and leaves all others as they are. -/
theorem getElem?_call (code : CodeBuffer) (c : Call) (i : Nat) (b : UInt8) :
    (code.call c).1.toList[i]? = some b ↔
      c.Gives code.size i b ∨ (∀ b', ¬ c.Gives code.size i b') ∧ code.toList[i]? = some b := by
  cases c with
  | emit bytes =>
    change (code.emit bytes).toList[i]? = some b ↔
      (code.size ≤ i ∧ bytes[i - code.size]? = some b) ∨
      (∀ b', ¬ (code.size ≤ i ∧ bytes[i - code.size]? = some b')) ∧ code.toList[i]? = some b
    rw [toList_emit]
    by_cases hlt : i < code.size
    · have hinside : i < code.toList.length := hlt
      rw [List.getElem?_append_left hinside]
      simp [hlt]
    · have hbeyond : code.toList.length ≤ i := Nat.not_lt.mp hlt
      rw [List.getElem?_append_right hbeyond, List.getElem?_eq_none hbeyond, length_toList]
      simp [Nat.not_lt.mp hlt]
  | patchByte position value => exact getElem?_settle_patch fun b => Call.gives_patchByte
  | patchWord position value => exact getElem?_settle_patch fun b => Call.gives_patchWord

/-- A patch is made if its range lies inside the code; otherwise it names its position and the size,
and nothing is written. -/
theorem call_patch {width : Nat} (h : c.range? = some (position, width)) :
    ((code.call c).2 = .patched ↔ position + width ≤ code.size) ∧
      (¬ position + width ≤ code.size →
        code.call c = (code, .refused (.patchOutOfBounds position code.size))) := by
  have hpatch : ∃ bytes : List UInt8,
      bytes.length = width ∧ code.call c = code.settle (code.patch position bytes) := by
    cases c with
    | emit _ => cases h
    | patchByte _ value =>
      cases h
      exact ⟨[value], rfl, rfl⟩
    | patchWord _ value =>
      cases h
      exact ⟨littleEndian 2 value.toNat, length_littleEndian _ _, rfl⟩
  obtain ⟨bytes, rfl, hcall⟩ := hpatch
  rw [hcall]
  refine ⟨⟨fun hpatched => ?_, fun hle => ?_⟩, settle_patch_of_not_le⟩
  · by_contra hle
    rw [settle_patch_of_not_le hle] at hpatched
    cases hpatched
  · rw [settle_patch_of_le hle]

/-! ## Histories -/

@[simp] theorem after_concat (calls : List Call) (c : Call) :
    after (calls ++ [c]) = ((after calls).call c).1 :=
  List.foldl_append

@[simp] theorem emitted_concat (calls : List Call) (c : Call) :
    emitted (calls ++ [c]) = emitted calls + c.growth := by
  rw [emitted, List.map_append, List.sum_append]
  rfl

@[simp] theorem size_after (calls : List Call) : (after calls).size = emitted calls := by
  induction calls using List.reverseRecOn with
  | nil => rfl
  | append_singleton calls c ih => rw [after_concat, size_call, ih, emitted_concat]

/-- Calls come apart at the newest one or before it. -/
theorem eq_or_of_concat_eq {before later : List Call} {giver : Call}
    (h : calls ++ [c] = before ++ giver :: later) :
    before = calls ∧ giver = c ∧ later = [] ∨
      ∃ between, later = between ++ [c] ∧ calls = before ++ giver :: between := by
  rcases List.eq_nil_or_concat later with rfl | ⟨between, newest, rfl⟩
  · obtain ⟨rfl, hnewest⟩ := List.append_inj' h rfl
    cases hnewest
    exact .inl ⟨rfl, rfl, rfl⟩
  · rw [List.concat_eq_append, ← List.cons_append, ← List.append_assoc] at h
    obtain ⟨rfl, hnewest⟩ := List.append_inj' h rfl
    cases hnewest
    exact .inr ⟨between, List.concat_eq_append, rfl⟩

/-- The last call to give a byte its value is the newest one, or an older one if the newest gives it
none. -/
theorem lastGiven_concat :
    LastGiven (calls ++ [c]) i b ↔
      c.Gives (emitted calls) i b ∨ (∀ b', ¬ c.Gives (emitted calls) i b') ∧
        LastGiven calls i b := by
  constructor
  · rintro ⟨before, giver, later, hcalls, hgives, hlast⟩
    rcases eq_or_of_concat_eq hcalls with ⟨rfl, rfl, rfl⟩ | ⟨between, rfl, rfl⟩
    · exact .inl hgives
    · refine .inr ⟨fun b' => hlast between c [] b' rfl, before, giver, between, rfl, hgives, ?_⟩
      rintro middle c' rest b' rfl
      refine hlast middle c' (rest ++ [c]) b' ?_
      rw [List.append_assoc, List.cons_append]
  · rintro (hgives | ⟨hnewest, before, giver, later, rfl, hgives, hlast⟩)
    · refine ⟨calls, c, [], rfl, hgives, ?_⟩
      intro middle c' rest b' hnil
      exact absurd hnil.symm (List.append_ne_nil_of_right_ne_nil _ (List.cons_ne_nil _ _))
    · refine ⟨before, giver, later ++ [c], by rw [List.append_assoc, List.cons_append], hgives, ?_⟩
      intro middle c' rest b' hlater
      rcases eq_or_of_concat_eq hlater with ⟨rfl, rfl, -⟩ | ⟨between, -, rfl⟩
      · exact hnewest b'
      · exact hlast middle c' between b' rfl

theorem getElem?_after (calls : List Call) (i : Nat) (b : UInt8) :
    (after calls).toList[i]? = some b ↔ LastGiven calls i b := by
  induction calls using List.reverseRecOn with
  | nil =>
    refine ⟨nofun, ?_⟩
    rintro ⟨before, c, later, hnil, -⟩
    exact absurd hnil.symm (List.append_ne_nil_of_right_ne_nil _ (List.cons_ne_nil _ _))
  | append_singleton calls c ih =>
      rw [after_concat, getElem?_call, size_after, ih, lastGiven_concat]

/-- After any calls the size of the code is the number of bytes emitted, which is where the next
bytes go.  A patch is made if and only if all of its range lies inside the code, and otherwise it
names its position and the size and leaves the code as it is.  Each byte has the value that the last
call to reach it gave it. -/
theorem code_by_history (calls : List Call) :
    (after calls).size = emitted calls ∧
    (∀ bytes, ((after calls).call (.emit bytes)).2 = .site (emitted calls)) ∧
    (∀ c position width, c.range? = some (position, width) →
      (((after calls).call c).2 = .patched ↔ position + width ≤ emitted calls) ∧
      (¬ position + width ≤ emitted calls →
        (after calls).call c =
          (after calls, .refused (.patchOutOfBounds position (emitted calls))))) ∧
    ∀ i b, (after calls).toList[i]? = some b ↔ LastGiven calls i b := by
  rw [← size_after]
  refine ⟨rfl, fun bytes => rfl, ?_, getElem?_after calls⟩
  intro c position width hrange
  exact call_patch hrange

/-- Patches that overlap, one that was too early, and one at the end of 64 bits. -/
def overlappingCalls : List Call :=
  [.emit [0x10, 0x20, 0x30], .patchWord 1 0xABCD, .patchByte 1 0x55, .patchWord 2 0x1111,
    .patchWord 0xFFFFFFFFFFFFFFFF 0x2222, .emit [0x40], .patchWord 2 0x0708]

theorem overlappingCalls_by_history :
    (after overlappingCalls).toList = [0x10, 0x55, 0x08, 0x07] ∧
    LastGiven overlappingCalls 1 0x55 ∧ LastGiven overlappingCalls 3 0x07 ∧
    ((after overlappingCalls).call (.patchWord 2 0)).2 = .patched ∧
    (after overlappingCalls).call (.patchWord 3 0) =
      (after overlappingCalls, .refused (.patchOutOfBounds 3 4)) ∧
    (after overlappingCalls).call (.patchWord 0xFFFFFFFFFFFFFFFF 0) =
      (after overlappingCalls, .refused (.patchOutOfBounds 0xFFFFFFFFFFFFFFFF 4)) := by
  have hcode : (after overlappingCalls).toList = [0x10, 0x55, 0x08, 0x07] := by decide
  obtain ⟨-, -, hpatch, hbyte⟩ := code_by_history overlappingCalls
  refine ⟨hcode, (hbyte 1 0x55).mp ?_, (hbyte 3 0x07).mp ?_, ?_, ?_, ?_⟩
  · rw [hcode]
    rfl
  · rw [hcode]
    rfl
  · exact (hpatch (.patchWord 2 0) 2 2 rfl).1.mpr (by decide)
  · exact (hpatch (.patchWord 3 0) 3 2 rfl).2 (by decide)
  · exact (hpatch (.patchWord 0xFFFFFFFFFFFFFFFF 0) _ 2 rfl).2 (by decide)

end Z80.CodeBuffer
