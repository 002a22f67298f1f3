import Z80.Text

/-!
# Dictionaries

Finite maps from texts, held as the list of their entries in the order of the keys.  Texts compare
character by character, by code point.  The order is part of the type, so what lists the entries
lists them by name.
-/

namespace Z80

/-- A finite map from texts, its entries in strictly increasing order of the keys. -/
@[ext]
structure Dictionary (α : Type) where
  entries : List (Text × α)
  sorted : entries.Pairwise fun a b => a.1 < b.1
  deriving DecidableEq

/-- Of two texts that differ, one comes first. -/
theorem Text.lt_of_not_lt {s t : Text} (hlt : ¬ s < t) (hne : s ≠ t) : t < s := by
  induction s generalizing t with
  | nil =>
    cases t with
    | nil => exact absurd rfl hne
    | cons b t => exact absurd (List.nil_lt_cons b t) hlt
  | cons a s ih =>
    cases t with
    | nil => exact List.nil_lt_cons a s
    | cons b t =>
      rw [List.cons_lt_cons_iff] at hlt ⊢
      by_cases hab : a = b
      · subst hab
        exact .inr ⟨rfl, ih (fun h => hlt (.inr ⟨rfl, h⟩)) fun h => hne (h ▸ rfl)⟩
      · have hle : b ≤ a := Char.not_lt.mp fun h => hlt (.inl h)
        exact .inl (Std.lt_of_le_of_ne hle (Ne.symm hab))

namespace Dictionary

variable {α : Type}

/-- Puts an entry in its place, instead of the one with the same key if there is one. -/
def insertEntry (key : Text) (value : α) : List (Text × α) → List (Text × α)
  | [] => [(key, value)]
  | e :: rest =>
    if key < e.1 then (key, value) :: e :: rest
    else if key = e.1 then (key, value) :: rest
    else e :: insertEntry key value rest

theorem mem_insertEntry {key : Text} {value : α} {l : List (Text × α)} {e : Text × α}
    (h : e ∈ insertEntry key value l) : e = (key, value) ∨ e ∈ l := by
  induction l with
  | nil => exact .inl (by simpa [insertEntry] using h)
  | cons x rest ih =>
    rw [insertEntry] at h
    split at h
    · simpa using h
    · split at h
      · rcases List.mem_cons.mp h with h | h
        · exact .inl h
        · exact .inr (List.mem_cons_of_mem _ h)
      · rcases List.mem_cons.mp h with h | h
        · exact .inr (h ▸ List.mem_cons_self)
        · exact (ih h).imp_right (List.mem_cons_of_mem _)

theorem sorted_insertEntry (key : Text) (value : α) {l : List (Text × α)}
    (h : l.Pairwise fun a b => a.1 < b.1) :
    (insertEntry key value l).Pairwise fun a b => a.1 < b.1 := by
  induction l with
  | nil => simp [insertEntry]
  | cons x rest ih =>
    obtain ⟨hx, hrest⟩ := List.pairwise_cons.mp h
    rw [insertEntry]
    split
    · next hlt =>
      refine List.pairwise_cons.mpr ⟨fun e he => ?_, h⟩
      rcases List.mem_cons.mp he with rfl | he
      · exact hlt
      · exact List.lt_trans hlt (hx e he)
    · next hle =>
      split
      · next heq => exact List.pairwise_cons.mpr ⟨fun e he => heq ▸ hx e he, hrest⟩
      · next hne =>
        refine List.pairwise_cons.mpr ⟨fun e he => ?_, ih hrest⟩
        rcases mem_insertEntry he with rfl | he
        · exact Text.lt_of_not_lt hle hne
        · exact hx e he

def empty : Dictionary α := ⟨[], .nil⟩

/-- Binds a key to a value; a later binding replaces an earlier one. -/
def insert (d : Dictionary α) (key : Text) (value : α) : Dictionary α :=
  ⟨insertEntry key value d.entries, sorted_insertEntry key value d.sorted⟩

def get? (d : Dictionary α) (key : Text) : Option α := d.entries.lookup key

def size (d : Dictionary α) : Nat := d.entries.length

def isEmpty (d : Dictionary α) : Bool := d.entries.isEmpty

@[simp] theorem get?_empty (key : Text) : (empty : Dictionary α).get? key = none := rfl

theorem lookup_cons_eq_ite (key : Text) (e : Text × α) (l : List (Text × α)) :
    (e :: l).lookup key = if key = e.1 then some e.2 else l.lookup key := by
  rw [List.lookup_cons]
  by_cases h : key = e.1
  · rw [if_pos h, beq_iff_eq.mpr h]
  · rw [if_neg h, beq_false_of_ne h]

@[simp] theorem lookup_insertEntry (key key' : Text) (value : α) (l : List (Text × α)) :
    (insertEntry key value l).lookup key' = if key' = key then some value else l.lookup key' := by
  induction l with
  | nil => rw [insertEntry, lookup_cons_eq_ite]
  | cons x rest ih =>
    rw [insertEntry]
    split
    · rw [lookup_cons_eq_ite]
    · split
      · next heq =>
        rw [lookup_cons_eq_ite, lookup_cons_eq_ite key' x]
        by_cases h : key' = key
        · rw [if_pos h, if_pos h]
        · rw [if_neg h, if_neg h, if_neg (heq ▸ h)]
      · next hne =>
        rw [lookup_cons_eq_ite, lookup_cons_eq_ite, ih]
        by_cases h : key' = key
        · rw [if_neg (h ▸ hne), if_pos h, if_pos h]
        · rw [if_neg h, if_neg h]

/-- A binding is seen under its own key, and nothing changes under the others. -/
@[simp] theorem get?_insert (d : Dictionary α) (key key' : Text) (value : α) :
    (d.insert key value).get? key' = if key' = key then some value else d.get? key' :=
  lookup_insertEntry key key' value d.entries

end Dictionary

end Z80
