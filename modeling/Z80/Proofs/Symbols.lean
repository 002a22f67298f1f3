import Z80.Proofs.Tiling

/-!
# What a symbol stands for

A symbol stands where its label was declared last: behind all statements of earlier lines and before
all of later ones.  Its position is a matter of labels and of sizes of code alone; neither an origin
nor the label that a statement refers to has a part in it.
-/

namespace Z80

/-! ## Footprints -/

/-- What a line adds to the labels or to the size of the code. -/
inductive Footprint where
  | label (name : Text)
  | code (size : Nat)
  deriving DecidableEq

/-- The footprint of a step.  An origin leaves none, and a statement only its size. -/
def Step.footprint? : Step → Option Footprint
  | .declare name => some (.label name)
  | .emit _ encoding => some (.code encoding.bytes.length)
  | _ => none

/-- The labels and the size of the code after one more line. -/
def Footprint.extend : Labels × Nat → Option Footprint → Labels × Nat
  | (labels, size), some (.label name) => (labels.insert name size, size)
  | (labels, size), some (.code more) => (labels, size + more)
  | layout, none => layout

/-- Whether a step sets the origin. -/
def Step.isLoad : Step → Bool
  | .load _ => true
  | _ => false

namespace Session

variable {setup : Setup} {s t : Session} {raw : Text}

/-- The footprints of lines. -/
def footprints (setup : Setup) (s : Session) (lines : List Text) : List (Option Footprint) :=
  (s.lineSteps setup lines).map (·.bind Step.footprint?)

/-- The labels, and the size of the code. -/
def layout (s : Session) : Labels × Nat := (s.labels, s.position)

@[simp] theorem layout_apply (s : Session) (step : Step) :
    (s.apply step).layout = Footprint.extend s.layout step.footprint? := by
  cases step with
  | emit statement encoding => exact congrArg (Prod.mk s.labels) (CodeBuffer.size_emit _ _)
  | _ => rfl

theorem footprints_cons_of_error (rest : List Text) {fault : Fault}
    (h : s.interpret setup raw = .error fault) :
    s.footprints setup (raw :: rest) = none :: s.count.footprints setup rest := by
  rw [footprints, lineSteps_cons_of_error rest h]
  rfl

theorem footprints_cons_of_ok (rest : List Text) {step : Step}
    (h : s.interpret setup raw = .ok step) :
    s.footprints setup (raw :: rest) =
      step.footprint? :: (s.count.apply step).footprints setup rest := by
  rw [footprints, lineSteps_cons_of_ok rest h]
  rfl

/-- The layout of a session is read off the footprints of its lines. -/
theorem layout_replay (setup : Setup) (s : Session) (lines : List Text) :
    (s.replay setup lines).1.layout =
      (s.footprints setup lines).foldl Footprint.extend s.layout := by
  induction lines generalizing s with
  | nil => rfl
  | cons raw rest ih =>
    rw [replay_cons_fst, ih]
    cases h : s.interpret setup raw with
    | error fault =>
      rw [push_of_error h, footprints_cons_of_error rest h]
      rfl
    | ok step =>
      rw [push_of_ok h, footprints_cons_of_ok rest h, List.foldl_cons, layout_apply]
      rfl

/-! ## Lines without origins -/

/-- The lines, with an empty one for each that sets the origin. -/
def blankOrigins (setup : Setup) (s : Session) (lines : List Text) : List Text :=
  List.zipWith (fun raw step? => if step?.any Step.isLoad then [] else raw) lines
    (s.lineSteps setup lines)

@[simp]
theorem interpret_nil (setup : Setup) (s : Session) : s.interpret setup [] = .ok .nothing := rfl

theorem bindings_apply_congr (h : t.bindings = s.bindings) (step : Step) :
    (t.apply step).bindings = (s.apply step).bindings := by
  cases step with
  | bind name value => exact congrArg (·.insert name value) h
  | _ => exact h

/-- Sessions with the same variables and layout read lines in the same way, also without the lines
that set the origin. -/
theorem footprints_blankOrigins (origin : Option Address) (lines : List Text)
    (hbindings : t.bindings = s.bindings) (hlayout : t.layout = s.layout) :
    t.footprints (setup.withOrigin origin) (s.blankOrigins setup lines) =
      s.footprints setup lines := by
  induction lines generalizing s t with
  | nil => rfl
  | cons raw rest ih =>
    have hlabels : t.labels = s.labels := congrArg Prod.fst hlayout
    have hsame : t.interpret (setup.withOrigin origin) raw = s.interpret setup raw := by
      rw [interpret_withOrigin]
      exact interpret_congr hbindings fun name => by rw [hlabels]
    cases h : s.interpret setup raw with
    | error fault =>
      have hblank : s.blankOrigins setup (raw :: rest) =
          raw :: s.count.blankOrigins setup rest := by
        rw [blankOrigins, lineSteps_cons_of_error rest h]
        rfl
      rw [hblank, footprints_cons_of_error rest h, footprints_cons_of_error _ (hsame.trans h)]
      exact congrArg _ (ih hbindings hlayout)
    | ok step =>
      have hblank : s.blankOrigins setup (raw :: rest) =
          (if step.isLoad then [] else raw) :: (s.count.apply step).blankOrigins setup rest := by
        rw [blankOrigins, lineSteps_cons_of_ok rest h]
        rfl
      have hlater : (t.count.apply step).layout = (s.count.apply step).layout := by
        rw [layout_apply, layout_apply]
        exact congrArg (Footprint.extend · _) hlayout
      rw [hblank, footprints_cons_of_ok rest h]
      cases hload : step.isLoad with
      | true =>
        cases step with
        | load address =>
          -- an empty line leaves no footprint either
          rw [if_pos rfl, footprints_cons_of_ok _ (interpret_nil _ _)]
          exact congrArg _ (ih hbindings hlater)
        | _ => cases hload
      | false =>
        rw [if_neg Bool.false_ne_true, footprints_cons_of_ok _ (hsame.trans h)]
        exact congrArg _
          (ih (bindings_apply_congr (s := s.count) (t := t.count) hbindings step) hlater)

/-! ## Declarations -/

/-- A label that is there stays. -/
theorem isSome_label_apply {name : Text} (h : (s.labels.get? name).isSome) (step : Step) :
    ((s.apply step).labels.get? name).isSome := by
  rw [labels_apply]
  cases (History.declaration? (s, step)).toList.lookup name with
  | none => exact h
  | some place => rfl

/-- Where no label may be declared again, one that is there is not declared. -/
theorem declare_notMem_lineSteps (hstrict : setup.settings.allowRedefinition = false) {name : Text}
    (h : (s.labels.get? name).isSome) (lines : List Text) :
    some (.declare name) ∉ s.lineSteps setup lines := by
  induction lines generalizing s with
  | nil => exact List.not_mem_nil
  | cons raw rest ih =>
    cases hstep : s.interpret setup raw with
    | error fault =>
      rw [lineSteps_cons_of_error rest hstep, List.mem_cons, not_or]
      exact ⟨nofun, ih h⟩
    | ok step =>
      rw [lineSteps_cons_of_ok rest hstep, List.mem_cons, not_or]
      refine ⟨?_, ih (isSome_label_apply (s := s.count) h step)⟩
      intro heq
      cases heq
      cases interpret_eq_ok.mp hstep with
      | declare _ hallowed => exact hallowed ⟨h, hstrict⟩

/-- Where no label may be declared again, each is declared once. -/
theorem declare_unique (hstrict : setup.settings.allowRedefinition = false) {lines : List Text}
    {name : Text} {i j : Nat} (hi : (s.lineSteps setup lines)[i]? = some (some (.declare name)))
    (hj : (s.lineSteps setup lines)[j]? = some (some (.declare name))) : i = j := by
  induction lines generalizing s i j with
  | nil => cases hi
  | cons raw rest ih =>
    -- once the first line declares the label, no later one does
    have hlater : some (.declare name) ∉
        (s.count.apply (.declare name)).lineSteps setup rest := by
      refine declare_notMem_lineSteps hstrict ?_ rest
      change ((s.count.labels.insert name s.count.position).get? name).isSome
      rw [Dictionary.get?_insert, if_pos rfl]
      rfl
    cases hstep : s.interpret setup raw with
    | error fault =>
      rw [lineSteps_cons_of_error rest hstep] at hi hj
      cases i with
      | zero => cases hi
      | succ i =>
        cases j with
        | zero => cases hj
        | succ j => exact congrArg (· + 1) (ih hi hj)
    | ok step =>
      rw [lineSteps_cons_of_ok rest hstep] at hi hj
      cases i with
      | zero =>
        cases j with
        | zero => rfl
        | succ j =>
          cases hi
          rw [List.getElem?_cons_succ] at hj
          exact absurd (List.mem_of_getElem? hj) hlater
      | succ i =>
        cases j with
        | zero =>
          cases hj
          rw [List.getElem?_cons_succ] at hi
          exact absurd (List.mem_of_getElem? hi) hlater
        | succ j => exact congrArg (· + 1) (ih hi hj)

end Session

/-! ## Positions -/

namespace History

variable {history earlier later : History} {t : Session} {name : Text}

@[simp] theorem emissions_append (history history' : History) :
    emissions (history ++ history') = history.emissions ++ history'.emissions :=
  List.filterMap_append

theorem lastDeclared?_eq_none (h : ∀ x ∈ history, x.2 ≠ .declare name) :
    history.lastDeclared? name = none := by
  rw [lastDeclared?, List.lookup_eq_none_iff]
  rintro ⟨name', place⟩ hp
  obtain ⟨⟨t, step⟩, hx, hdeclared⟩ := List.mem_filterMap.mp (List.mem_reverse.mp hp)
  cases step with
  | declare label =>
    cases hdeclared
    rw [bne_iff_ne]
    rintro rfl
    exact h _ hx rfl
  | _ => cases hdeclared

/-- The declaration after which there is no other counts. -/
theorem lastDeclared?_append (hlater : ∀ x ∈ later, x.2 ≠ .declare name) :
    lastDeclared? (earlier ++ (t, .declare name) :: later) name = some t.position := by
  have hnone := lastDeclared?_eq_none hlater
  rw [lastDeclared?] at hnone ⊢
  rw [declarations, List.filterMap_append, List.reverse_append, List.lookup_append]
  change ((List.filterMap declaration? ((t, .declare name) :: later)).reverse.lookup name).or _ = _
  rw [List.filterMap_cons_some (by rfl), List.reverse_cons, List.lookup_append]
  rw [declarations] at hnone
  rw [hnone, Option.none_or, List.lookup_cons_self, Option.some_or]

/-- Of the declarations of a label, one is the last. -/
theorem exists_last_declaration (h : ∃ x ∈ history, x.2 = .declare name) :
    ∃ earlier t later, history = earlier ++ (t, .declare name) :: later ∧
      ∀ x ∈ later, x.2 ≠ .declare name := by
  induction history with
  | nil =>
    obtain ⟨x, hx, -⟩ := h
    cases hx
  | cons y rest ih =>
    by_cases hrest : ∃ x ∈ rest, x.2 = .declare name
    · obtain ⟨earlier, t, later, rfl, hlater⟩ := ih hrest
      exact ⟨y :: earlier, t, later, rfl, hlater⟩
    · obtain ⟨⟨t, step⟩, hx, hdeclared⟩ := h
      cases hdeclared
      have hfirst : (t, .declare name) = y :=
        (List.mem_cons.mp hx).resolve_right fun hmem => hrest ⟨_, hmem, rfl⟩
      exact ⟨[], t, rest, by rw [hfirst]; rfl, fun x hxr hdeclared => hrest ⟨x, hxr, hdeclared⟩⟩

end History

namespace Session.Run

variable {setup : Setup} {history earlier later : History} {s t : Session} {name : Text}

/-- A step is made behind the code of the steps before it. -/
theorem position_split {x : Session × Step} (h : Run setup start (earlier ++ x :: later) s) :
    x.1.position = (Emission.bytes earlier.emissions).length := by
  obtain ⟨before, hearlier, hx, -⟩ := h.split
  rw [hx, ← hearlier.size_start]
  rfl

/-- Behind the last statement before it, or at the start. -/
theorem position_split_eq_stop {x : Session × Step}
    (h : Run setup start (earlier ++ x :: later) s) :
    x.1.position = 0 ∨ ∃ m ∈ earlier.emissions, x.1.position = m.stop := by
  obtain ⟨before, hearlier, -, -⟩ := h.split
  rw [h.position_split]
  cases hlast : earlier.emissions.getLast? with
  | none =>
    rw [List.getLast?_eq_none_iff.mp hlast]
    exact .inl rfl
  | some m =>
    exact .inr ⟨m, List.mem_of_getLast? hlast, (hearlier.tiles_start.getLast?_stop hlast).symm⟩

/-- The statements of earlier lines are those of earlier steps. -/
theorem filter_line_split {x : Session × Step} (h : Run setup start (earlier ++ x :: later) s)
    (hx : History.emission? x = none) :
    ((earlier ++ x :: later).emissions.map Emission.entry).filter (·.line < x.1.lines) =
      earlier.emissions.map Emission.entry := by
  obtain ⟨before, hearlier, hcount, hlater⟩ := h.split
  have hbefore : ∀ e ∈ earlier.emissions.map Emission.entry, decide (e.line < x.1.lines) := by
    intro e he
    obtain ⟨m, hm, rfl⟩ := List.mem_map.mp he
    have hle : m.entry.line ≤ before.lines := (hearlier.line_bounds hm).2
    rw [decide_eq_true_iff, hcount, lines_count]
    omega
  have hafter : ∀ e ∈ later.emissions.map Emission.entry, ¬ decide (e.line < x.1.lines) := by
    intro e he
    obtain ⟨m, hm, rfl⟩ := List.mem_map.mp he
    have hlt : (x.1.apply x.2).lines < m.entry.line := (hlater.line_bounds hm).1
    rw [lines_apply] at hlt
    rw [decide_eq_true_iff]
    omega
  rw [History.emissions_append, History.emissions_cons, hx, Option.toList_none, List.nil_append,
    List.map_append, List.filter_append, List.filter_eq_self.mpr hbefore,
    List.filter_eq_nil_iff.mpr hafter, List.append_nil]

/-- A label that is declared has the position of its last declaration. -/
theorem get?_of_last (h : Run setup start (earlier ++ (t, .declare name) :: later) s)
    (hlater : ∀ x ∈ later, x.2 ≠ .declare name) : s.labels.get? name = some t.position := by
  rw [h.labels, History.lastDeclared?_append hlater, Option.some_or]

theorem isSome_label_iff (h : Run setup start history s) :
    (s.labels.get? name).isSome ↔ ∃ x ∈ history, x.2 = .declare name := by
  constructor
  · intro hsome
    by_contra hnone
    have hlabels := h.labels name
    rw [History.lastDeclared?_eq_none fun x hx hdeclared => hnone ⟨x, hx, hdeclared⟩] at hlabels
    rw [hlabels] at hsome
    cases hsome
  · intro hdeclared
    obtain ⟨earlier, t, later, rfl, hlater⟩ := History.exists_last_declaration hdeclared
    rw [h.get?_of_last hlater]
    rfl

end Session.Run

namespace Session

variable {setup : Setup} {s : Session} {lines : List Text} {name : Text}

theorem exists_declare_iff :
    (∃ x ∈ s.steps setup lines, x.2 = .declare name) ↔
      ∃ i : Nat, (s.lineSteps setup lines)[i]? = some (some (.declare name)) := by
  constructor
  · rintro ⟨⟨t, step⟩, hx, rfl⟩
    obtain ⟨i, -, hi⟩ := exists_mem_steps_iff.mp ⟨t, hx, rfl⟩
    exact ⟨i, hi⟩
  · rintro ⟨i, hi⟩
    obtain ⟨t, hx, -⟩ := exists_mem_steps_iff.mpr ⟨i, rfl, hi⟩
    exact ⟨_, hx, rfl⟩

/-- The last line that declares a label makes the last step that does. -/
theorem exists_split_of_last {i : Nat}
    (hi : (s.lineSteps setup lines)[i]? = some (some (.declare name)))
    (hlast : ∀ j, i < j → (s.lineSteps setup lines)[j]? ≠ some (some (.declare name))) :
    ∃ earlier t later, s.steps setup lines = earlier ++ (t, .declare name) :: later ∧
      t.lines = s.lines + (i + 1) ∧ ∀ x ∈ later, x.2 ≠ .declare name := by
  obtain ⟨t, hx, hline⟩ := exists_mem_steps_iff.mpr ⟨i, rfl, hi⟩
  obtain ⟨earlier, later, hsplit⟩ := List.append_of_mem hx
  refine ⟨earlier, t, later, hsplit, hline, ?_⟩
  rintro ⟨t', step⟩ hy rfl
  have hmem : (t', .declare name) ∈ s.steps setup lines := by
    rw [hsplit]
    exact List.mem_append_right _ (List.mem_cons_of_mem _ hy)
  obtain ⟨j, hj, hstep⟩ := exists_mem_steps_iff.mp ⟨t', hmem, rfl⟩
  have hpairs := (run_replay setup s lines).pairwise_lines
  rw [hsplit, List.pairwise_append, List.pairwise_cons] at hpairs
  have hlt : t.lines < t'.lines := hpairs.2.1.1 _ hy
  exact hlast j (by omega) hstep

/-- Lines with the same footprints leave the same labels. -/
theorem labels_of_footprints {setup' : Setup} {lines' : List Text}
    (h : s.footprints setup' lines' = s.footprints setup lines) :
    (s.replay setup' lines').1.labels = (s.replay setup lines).1.labels := by
  have hlayout : (s.replay setup' lines').1.layout = (s.replay setup lines).1.layout := by
    rw [layout_replay, layout_replay, h]
  exact congrArg Prod.fst hlayout

end Session

theorem Emission.length_bytes (ms : List Emission) :
    (bytes ms).length = ((ms.map entry).map Entry.length).sum := by
  rw [bytes, List.length_flatMap, List.map_map]
  rfl

namespace Session

/-- Whatever lines a session has taken, if it ends in an assembly: there is a symbol for each label
that is declared; it stands behind all statements whose lines are before that of its last
declaration, of which there is only one if no label may be declared again; it is at the start of the
code or at the end of an entry; and it is the same in every session with the same footprints, as in
one whose settings have another origin and whose lines set none. -/
theorem symbols_at_last_declaration (setup : Setup) (lines : List Text) (asm : Assembly)
    (hfinish : ((start.replay setup lines).1.finish setup).2 = .ok asm) :
    (∀ name, (asm.symbols.get? name).isSome ↔
      ∃ i : Nat, (start.lineSteps setup lines)[i]? = some (some (.declare name))) ∧
    (∀ (name : Text) (i : Nat), (start.lineSteps setup lines)[i]? = some (some (.declare name)) →
      (∀ j, i < j → (start.lineSteps setup lines)[j]? ≠ some (some (.declare name))) →
      asm.symbols.get? name =
        some ((asm.listing.filter (·.line < i + 1)).map Entry.length).sum) ∧
    (setup.settings.allowRedefinition = false → ∀ (name : Text) (i j : Nat),
      (start.lineSteps setup lines)[i]? = some (some (.declare name)) →
      (start.lineSteps setup lines)[j]? = some (some (.declare name)) → i = j) ∧
    (∀ name place, asm.symbols.get? name = some place →
      (place = 0 ∨ ∃ e ∈ asm.listing, place = e.position + e.length) ∧ place ≤ asm.code.size) ∧
    (∀ setup' lines', start.footprints setup' lines' = start.footprints setup lines →
      (start.replay setup' lines').1.labels = asm.symbols) ∧
    ∀ origin, (start.replay (setup.withOrigin origin) (start.blankOrigins setup lines)).1.labels =
      asm.symbols := by
  have hrun := run_replay setup start lines
  obtain ⟨hwrite, -, hsymbols, hlisting⟩ := finish_eq_ok hrun.filled_start hfinish
  rw [hrun.listing_start] at hlisting
  have hfootprints : ∀ setup' lines',
      start.footprints setup' lines' = start.footprints setup lines →
        (start.replay setup' lines').1.labels = asm.symbols := by
    intro setup' lines' hsame
    rw [hsymbols, labels_of_footprints hsame]
  refine ⟨?_, ?_, fun hstrict name i j hi hj => declare_unique hstrict hi hj, ?_, hfootprints, ?_⟩
  · intro name
    rw [hsymbols, hrun.isSome_label_iff, exists_declare_iff]
  · intro name i hi hlast
    obtain ⟨earlier, t, later, hsplit, hline, hlater⟩ := exists_split_of_last hi hlast
    have hnumber : t.lines = i + 1 := hline.trans (Nat.zero_add _)
    rw [hsplit] at hrun hlisting
    rw [hsymbols, hrun.get?_of_last hlater, hrun.position_split, Emission.length_bytes, hlisting,
      ← hnumber, ← hrun.filter_line_split rfl]
  · intro name place hplace
    rw [hsymbols] at hplace
    have hinside : place ≤ asm.code.size := by
      rw [Request.size_writeAll hwrite]
      exact hrun.labelsInside_start name place hplace
    refine ⟨?_, hinside⟩
    obtain ⟨earlier, t, later, hsplit, hlater⟩ :=
      History.exists_last_declaration (hrun.isSome_label_iff.mp (Option.isSome_of_mem hplace))
    rw [hsplit] at hrun hlisting
    rw [hrun.get?_of_last hlater] at hplace
    cases hplace
    rcases hrun.position_split_eq_stop with hzero | ⟨m, hm, hstop⟩
    · exact .inl hzero
    · refine .inr ⟨m.entry, ?_, hstop⟩
      rw [hlisting, History.emissions_append]
      exact List.mem_map_of_mem (List.mem_append_left _ hm)
  · intro origin
    exact hfootprints _ _ (footprints_blankOrigins origin lines rfl rfl)

/-- The label of the sample stands behind all of its statements, which its second declaration
follows. -/
theorem sampleAssembly_symbol :
    (start.lineSteps sampleSetup sampleLines)[5]? = some (some (.declare "a".toList)) ∧
    sampleAssembly.symbols.get? "a".toList = some 6 ∧
    ((sampleAssembly.listing.filter (·.line < 6)).map Entry.length).sum = 6 ∧
    (start.replay (sampleSetup.withOrigin (some 7)) (sampleLines.set 6 [])).1.labels =
      sampleAssembly.symbols := by
  have hfinish : ((start.replay sampleSetup sampleLines).1.finish sampleSetup).2 =
      .ok sampleAssembly := by
    decide +kernel
  have hstep : (start.lineSteps sampleSetup sampleLines)[5]? =
      some (some (.declare "a".toList)) := by
    decide +kernel
  have hblank : start.blankOrigins sampleSetup sampleLines = sampleLines.set 6 [] := by
    decide +kernel
  have hlast : ∀ j, 5 < j →
      (start.lineSteps sampleSetup sampleLines)[j]? ≠ some (some (.declare "a".toList)) := by
    intro j hj hdeclared
    have hlt := (List.getElem?_eq_some_iff.mp hdeclared).1
    rw [length_lineSteps] at hlt
    have hsix : j = 6 := Nat.le_antisymm (Nat.le_of_lt_succ hlt) hj
    subst hsix
    revert hdeclared
    decide +kernel
  obtain ⟨-, hplace, -, -, -, horigin⟩ :=
    symbols_at_last_declaration sampleSetup sampleLines sampleAssembly hfinish
  have hsum : ((sampleAssembly.listing.filter (·.line < 6)).map Entry.length).sum = 6 := rfl
  have hsymbol := hplace "a".toList 5 hstep hlast
  have hmoved := horigin (some 7)
  rw [hsum] at hsymbol
  rw [hblank] at hmoved
  exact ⟨hstep, hsymbol, hsum, hmoved⟩

end Session

end Z80
