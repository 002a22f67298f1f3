/-!
# Computations that change a state and may fail

What such a computation changed before it failed stays changed.  So whether a failure leaves no
trace depends on the order of what is done: before a part that can fail all parts have to keep the
state, and after a change no part may fail.  The state is looked at through a function, as some of
it may not matter.
-/

namespace Z80.Attempt

variable {ε σ ρ α β : Type} {see : σ → ρ} {x : ExceptT ε (StateM σ) α}
  {f : α → ExceptT ε (StateM σ) β} {s s' : σ}

/-! ## Runs -/

@[simp] theorem run_pure (a : α) (s : σ) :
    (pure a : ExceptT ε (StateM σ) α).run s = (.ok a, s) := rfl

@[simp] theorem run_throw (e : ε) (s : σ) :
    (throw e : ExceptT ε (StateM σ) α).run s = (.error e, s) := rfl

@[simp] theorem run_lift (r : Except ε α) (s : σ) :
    (liftM r : ExceptT ε (StateM σ) α).run s = (r, s) := rfl

@[simp] theorem run_liftM (y : StateM σ α) (s : σ) :
    (liftM y : ExceptT ε (StateM σ) α).run s = (.ok (y.run s).1, (y.run s).2) := rfl

theorem run_bind_of_ok {a : α} (h : x.run s = (.ok a, s')) : (x >>= f).run s = (f a).run s' := by
  change ExceptT.bindCont f (x.run s).1 (x.run s).2 = _
  rw [h]
  rfl

theorem run_bind_of_error {e : ε} (h : x.run s = (.error e, s')) :
    (x >>= f).run s = (.error e, s') := by
  change ExceptT.bindCont f (x.run s).1 (x.run s).2 = _
  rw [h]
  rfl

theorem run_bind_eq_ok {b : β} (h : (x >>= f).run s = (.ok b, s')) :
    ∃ a middle, x.run s = (.ok a, middle) ∧ (f a).run middle = (.ok b, s') := by
  cases hx : x.run s with
  | mk r middle =>
    cases r with
    | error e =>
      rw [run_bind_of_error hx] at h
      cases h
    | ok a =>
      rw [run_bind_of_ok hx] at h
      exact ⟨a, middle, rfl, h⟩

theorem run_bind_eq_error {e : ε} (h : (x >>= f).run s = (.error e, s')) :
    x.run s = (.error e, s') ∨
      ∃ a middle, x.run s = (.ok a, middle) ∧ (f a).run middle = (.error e, s') := by
  cases hx : x.run s with
  | mk r middle =>
    cases r with
    | error e' =>
      rw [run_bind_of_error hx] at h
      cases h
      exact .inl rfl
    | ok a =>
      rw [run_bind_of_ok hx] at h
      exact .inr ⟨a, middle, rfl, h⟩

/-! ## What a failure leaves -/

/-- The computation changes nothing. -/
def Keeps (see : σ → ρ) (x : ExceptT ε (StateM σ) α) : Prop := ∀ s, see (x.run s).2 = see s

/-- The computation does not fail. -/
def Certain (x : ExceptT ε (StateM σ) α) : Prop := ∀ s, ∃ a s', x.run s = (.ok a, s')

/-- The computation changes nothing if it fails. -/
def Atomic (see : σ → ρ) (x : ExceptT ε (StateM σ) α) : Prop :=
  ∀ s e s', x.run s = (.error e, s') → see s' = see s

theorem Keeps.see_eq (hx : Keeps see x) {r : Except ε α} (h : x.run s = (r, s')) :
    see s' = see s := by
  have hs := hx s
  rwa [h] at hs

theorem Keeps.pure (a : α) : Keeps see (pure a : ExceptT ε (StateM σ) α) := fun s => by
  rw [run_pure]

theorem Keeps.throw (e : ε) : Keeps see (throw e : ExceptT ε (StateM σ) α) := fun s => by
  rw [run_throw]

theorem Keeps.lift (r : Except ε α) : Keeps see (liftM r : ExceptT ε (StateM σ) α) := fun s => by
  rw [run_lift]

theorem Keeps.bind (hx : Keeps see x) (hf : ∀ a, Keeps see (f a)) : Keeps see (x >>= f) := by
  intro s
  cases h : x.run s with
  | mk r s' =>
    cases r with
    | error e =>
      rw [run_bind_of_error h]
      exact hx.see_eq h
    | ok a =>
      rw [run_bind_of_ok h]
      exact (hf a s').trans (hx.see_eq h)

theorem Keeps.atomic (hx : Keeps see x) : Atomic see x := fun _ _ _ h => hx.see_eq h

theorem Certain.pure (a : α) : Certain (pure a : ExceptT ε (StateM σ) α) :=
  fun s => ⟨_, _, run_pure a s⟩

theorem Certain.bind (hx : Certain x) (hf : ∀ a, Certain (f a)) : Certain (x >>= f) := by
  intro s
  obtain ⟨a, s', h⟩ := hx s
  rw [run_bind_of_ok h]
  exact hf a s'

theorem Certain.forM {g : α → ExceptT ε (StateM σ) PUnit} (hg : ∀ a, Certain (g a)) (o : Option α) :
    Certain (o.forM g) := by
  cases o with
  | none => exact .pure _
  | some a => exact hg a

theorem Certain.atomic (hx : Certain x) : Atomic see x := by
  intro s e s' h
  obtain ⟨a, s'', ha⟩ := hx s
  rw [h] at ha
  cases ha

/-- What follows a change does not fail. -/
theorem Atomic.bind (hx : Atomic see x)
    (hf : ∀ s a s', x.run s = (.ok a, s') → Certain (f a) ∨ see s' = see s ∧ Atomic see (f a)) :
    Atomic see (x >>= f) := by
  intro s e s' h
  rcases run_bind_eq_error h with hfail | ⟨a, middle, hok, hfail⟩
  · exact hx s e s' hfail
  rcases hf s a middle hok with hcertain | ⟨hsee, hatomic⟩
  · obtain ⟨b, s'', hb⟩ := hcertain middle
    rw [hfail] at hb
    cases hb
  · exact (hatomic middle e s' hfail).trans hsee

/-- A computation that keeps the state may come first. -/
theorem Keeps.atomic_bind (hx : Keeps see x) (hf : ∀ a, Atomic see (f a)) : Atomic see (x >>= f) :=
  hx.atomic.bind fun _ a _ h => .inr ⟨hx.see_eq h, hf a⟩

end Z80.Attempt
