import Z80.Fault

/-!
# Computations that may fail

How a computation that succeeds comes apart into its parts, and how a property of all its faults is
put together from those of its parts.
-/

namespace Z80

variable {ε α β : Type}

theorem bind_eq_ok {x : Except ε α} {f : α → Except ε β} {b : β} :
    x >>= f = .ok b ↔ ∃ a, x = .ok a ∧ f a = .ok b := by
  cases x with
  | error e =>
    refine ⟨fun h => ?_, fun ⟨a, h, _⟩ => ?_⟩
    · cases h
    · cases h
  | ok a =>
    refine ⟨fun h => ⟨a, rfl, h⟩, ?_⟩
    rintro ⟨a', ha, hb⟩
    cases ha
    exact hb

@[simp]
theorem error_bind (e : ε) (f : α → Except ε β) : (.error e : Except ε α) >>= f = .error e := rfl

/-- Every fault of the computation has the property. -/
def FaultsIn (p : Fault → Prop) (x : Except Fault α) : Prop := ∀ fault, x = .error fault → p fault

namespace FaultsIn

variable {p : Fault → Prop}

@[simp] theorem ok (a : α) : FaultsIn p (.ok a : Except Fault α) := by
  intro fault h
  cases h

theorem error {fault : Fault} (h : p fault) : FaultsIn p (.error fault : Except Fault α) := by
  intro fault' h'
  cases h'
  exact h

theorem bind {x : Except Fault α} {f : α → Except Fault β} (hx : FaultsIn p x)
    (hf : ∀ a, x = .ok a → FaultsIn p (f a)) : FaultsIn p (x >>= f) := by
  cases x with
  | error fault => exact error (hx fault rfl)
  | ok a => exact hf a rfl

theorem map {x : Except Fault α} (f : α → β) (hx : FaultsIn p x) : FaultsIn p (x.map f) := by
  cases x with
  | error fault => exact error (hx fault rfl)
  | ok a => exact ok (f a)

theorem mapM {f : α → Except Fault β} (hf : ∀ a, FaultsIn p (f a)) (l : List α) :
    FaultsIn p (l.mapM f) := by
  induction l with
  | nil => exact ok []
  | cons a l ih =>
    rw [List.mapM_cons]
    refine bind (hf a) fun b _ => bind ih fun bs _ => ?_
    exact ok (b :: bs)

end FaultsIn

end Z80
