import Z80.InstructionSet
import Z80.Proofs.Encoding
import Z80.Proofs.Resolution
import Z80.Proofs.Step

/-!
# Runs of a session

A run takes lines one after another, and the lines that are accepted make steps.  What the session
holds after a run is read off those steps: the code and the listing are what the statements emitted,
a label stands where it was declared last, the origin is the one that was set last, and what waits
for a label is what the emitted statements refer to.
-/

namespace Z80

/-! ## Emissions -/

/-- What a statement adds to the code: the number of its line, its position, and its encoding. -/
structure Emission where
  line : Nat
  position : Nat
  statement : Statement
  encoding : Encoding

namespace Emission

def size (m : Emission) : Nat := m.encoding.bytes.length

/-- Where the next statement starts. -/
def stop (m : Emission) : Nat := m.position + m.size

def entry (m : Emission) : Entry := ⟨m.line, m.position, m.size, m.statement.text⟩

/-- The label that the statement waits for. -/
def request? (m : Emission) : Option Request := m.encoding.reference.map (Request.mk · m.position)

/-- The bytes of emissions, one after the other. -/
def bytes (ms : List Emission) : List UInt8 := ms.flatMap (·.encoding.bytes)

/-- Each emission starts where the one before it stops. -/
def Tiles : Nat → List Emission → Prop
  | _, [] => True
  | position, m :: rest => m.position = position ∧ Tiles m.stop rest

@[simp] theorem bytes_nil : bytes [] = [] := rfl

@[simp] theorem bytes_cons (m : Emission) (ms : List Emission) :
    bytes (m :: ms) = m.encoding.bytes ++ bytes ms := rfl

@[simp] theorem bytes_append (ms ms' : List Emission) : bytes (ms ++ ms') = bytes ms ++ bytes ms' :=
  List.flatMap_append

namespace Tiles

variable {position : Nat} {ms : List Emission} {m m' : Emission}

theorem le_position (h : Tiles position ms) (hm : m ∈ ms) : position ≤ m.position := by
  induction ms generalizing position with
  | nil => cases hm
  | cons m' rest ih =>
    obtain ⟨hposition, hrest⟩ := h
    rcases List.mem_cons.mp hm with rfl | hm
    · exact Nat.le_of_eq hposition.symm
    · have hle := ih hrest hm
      have hstop : m'.stop = m'.position + m'.size := rfl
      omega

/-- Emissions do not overlap, and go by position. -/
theorem pairwise (h : Tiles position ms) : ms.Pairwise fun m m' => m.stop ≤ m'.position := by
  induction ms generalizing position with
  | nil => exact .nil
  | cons m rest ih =>
    obtain ⟨-, hrest⟩ := h
    exact List.pairwise_cons.mpr ⟨fun m' hm' => hrest.le_position hm', ih hrest⟩

theorem position_append {later : List Emission} (h : Tiles position (ms ++ m :: later)) :
    m.position = position + (bytes ms).length := by
  induction ms generalizing position with
  | nil => exact h.1
  | cons m' rest ih =>
    obtain ⟨hposition, hrest⟩ := h
    rw [ih hrest, bytes_cons, List.length_append, stop, size, hposition, Nat.add_assoc]

/-- The code of an emission is where its position says. -/
theorem drop_take (h : Tiles 0 ms) (hm : m ∈ ms) :
    ((bytes ms).drop m.position).take m.size = m.encoding.bytes := by
  obtain ⟨earlier, later, rfl⟩ := List.append_of_mem hm
  have hposition : m.position = (bytes earlier).length := by
    rw [h.position_append, Nat.zero_add]
  rw [bytes_append, hposition, List.drop_left, bytes_cons, size, List.take_left]

theorem stop_le (h : Tiles 0 ms) (hm : m ∈ ms) : m.stop ≤ (bytes ms).length := by
  obtain ⟨earlier, later, rfl⟩ := List.append_of_mem hm
  have hposition := h.position_append
  rw [bytes_append, bytes_cons, List.length_append, List.length_append, stop, size]
  omega

theorem getElem?_bytes (h : Tiles 0 ms) (hm : m ∈ ms) {i : Nat} (hi : i < m.size) :
    (bytes ms)[m.position + i]? = m.encoding.bytes[i]? := by
  rw [← h.drop_take hm, List.getElem?_take_of_lt hi, List.getElem?_drop]

/-- Two emissions that share a byte have the same place in the list. -/
theorem index_eq (h : Tiles position ms) {j j' i : Nat} (hj : ms[j]? = some m)
    (hj' : ms[j']? = some m') (hi : m.position ≤ i ∧ i < m.stop)
    (hi' : m'.position ≤ i ∧ i < m'.stop) : j' = j := by
  obtain ⟨hlt, rfl⟩ := List.getElem?_eq_some_iff.mp hj
  obtain ⟨hlt', rfl⟩ := List.getElem?_eq_some_iff.mp hj'
  have hordered := List.pairwise_iff_getElem.mp h.pairwise
  rcases Nat.lt_trichotomy j j' with hjj | hjj | hjj
  · have := hordered j j' hlt hlt' hjj
    omega
  · exact hjj.symm
  · have := hordered j' j hlt' hlt hjj
    omega

theorem eq_of_shared (h : Tiles position ms) (hm : m ∈ ms) (hm' : m' ∈ ms) {i : Nat}
    (hi : m.position ≤ i ∧ i < m.stop) (hi' : m'.position ≤ i ∧ i < m'.stop) : m' = m := by
  obtain ⟨j, hj⟩ := List.getElem?_of_mem hm
  obtain ⟨j', hj'⟩ := List.getElem?_of_mem hm'
  have hindex := h.index_eq hj hj' hi hi'
  rw [hindex, hj] at hj'
  exact (Option.some.inj hj').symm

end Tiles

end Emission

/-! ## Histories -/

/-- Steps, each with the session in which it is made. -/
abbrev History := List (Session × Step)

namespace History

def emission? : Session × Step → Option Emission
  | (s, .emit statement encoding) => some ⟨s.lines, s.position, statement, encoding⟩
  | _ => none

def origin? : Session × Step → Option Address
  | (_, .load origin) => some origin
  | _ => none

def declaration? : Session × Step → Option (Text × Nat)
  | (s, .declare name) => some (name, s.position)
  | _ => none

def emissions (history : History) : List Emission := history.filterMap emission?

/-- The origins that are set, in order. -/
def origins (history : History) : List Address := history.filterMap origin?

/-- The labels that are declared, in order, each with its position. -/
def declarations (history : History) : List (Text × Nat) := history.filterMap declaration?

/-- Where a label is declared for the last time. -/
def lastDeclared? (history : History) (name : Text) : Option Nat :=
  history.declarations.reverse.lookup name

theorem emissions_cons (x : Session × Step) (history : History) :
    emissions (x :: history) = (emission? x).toList ++ emissions history := by
  rw [emissions, List.filterMap_cons]
  cases emission? x <;> rfl

theorem origins_cons (x : Session × Step) (history : History) :
    origins (x :: history) = (origin? x).toList ++ origins history := by
  rw [origins, List.filterMap_cons]
  cases origin? x <;> rfl

theorem declarations_cons (x : Session × Step) (history : History) :
    declarations (x :: history) = (declaration? x).toList ++ declarations history := by
  rw [declarations, List.filterMap_cons]
  cases declaration? x <;> rfl

end History

namespace Session

/-- The steps that lines make.  A refused line makes none. -/
def steps (setup : Setup) (s : Session) : List Text → History
  | [] => []
  | raw :: rest =>
    match s.interpret setup raw with
    | .error _ => steps setup s.count rest
    | .ok step => (s.count, step) :: steps setup (s.count.apply step) rest

/-- A run from one session to another, and the steps that it makes. -/
inductive Run (setup : Setup) : Session → History → Session → Prop
  | done (s : Session) : Run setup s [] s
  | refused {s after : Session} {history : History} {raw : Text} {fault : Fault}
      (refusal : s.interpret setup raw = .error fault) (later : Run setup s.count history after) :
      Run setup s history after
  | taken {s after : Session} {history : History} {raw : Text} {step : Step}
      (acceptance : s.interpret setup raw = .ok step)
      (later : Run setup (s.count.apply step) history after) :
      Run setup s ((s.count, step) :: history) after

variable {setup : Setup} {s after : Session} {raw : Text}

@[simp] theorem replay_cons_fst (rest : List Text) :
    (s.replay setup (raw :: rest)).1 = ((s.push setup raw).1.replay setup rest).1 := rfl

/-- Lines are taken by a run with their steps. -/
theorem run_replay (setup : Setup) (s : Session) (lines : List Text) :
    Run setup s (s.steps setup lines) (s.replay setup lines).1 := by
  induction lines generalizing s with
  | nil => exact .done s
  | cons raw rest ih =>
    rw [replay_cons_fst, steps]
    cases h : s.interpret setup raw with
    | error fault =>
      rw [push_of_error h]
      exact .refused h (ih s.count)
    | ok step =>
      rw [push_of_ok h]
      exact .taken h (ih (s.count.apply step))

/-! ### One step -/

/-- What is emitted has been accepted by the encoder. -/
theorem ofStatement_of_interpret {statement : Statement} {encoding : Encoding}
    (h : s.interpret setup raw = .ok (.emit statement encoding)) :
    Encoding.ofStatement setup.table statement = .ok encoding := by
  cases interpret_eq_ok.mp h with
  | emit _ _ hencoding => exact hencoding

@[simp] theorem code_apply (s : Session) (step : Step) :
    (s.apply step).code.toList =
      s.code.toList ++ Emission.bytes (History.emission? (s, step)).toList := by
  cases step <;> simp [apply, History.emission?]

@[simp] theorem position_apply (s : Session) (step : Step) :
    (s.apply step).position =
      s.position + (Emission.bytes (History.emission? (s, step)).toList).length := by
  rw [position, ← CodeBuffer.length_toList, code_apply, List.length_append,
    CodeBuffer.length_toList, position]

@[simp] theorem listing_apply (s : Session) (step : Step) :
    (s.apply step).listing.toList =
      s.listing.toList ++ (History.emission? (s, step)).toList.map Emission.entry := by
  cases step <;> simp [apply, History.emission?, Emission.entry, Emission.size]

@[simp] theorem origin_apply (s : Session) (step : Step) :
    (s.apply step).origin = (History.origin? (s, step)).or s.origin := by
  cases step <;> rfl

@[simp] theorem labels_apply (s : Session) (step : Step) (name : Text) :
    (s.apply step).labels.get? name =
      ((History.declaration? (s, step)).toList.lookup name).or (s.labels.get? name) := by
  cases step with
  | declare label =>
    change (s.labels.insert label s.position).get? name = _
    rw [Dictionary.get?_insert, History.declaration?, Option.toList_some,
      Dictionary.lookup_cons_eq_ite]
    split <;> rfl
  | _ => rfl

theorem requests_apply (s : Session) (step : Step) :
    (s.apply step).references.requests.Perm
      (s.references.requests ++
        (History.emission? (s, step)).toList.filterMap Emission.request?) := by
  cases step with
  | emit statement encoding =>
    cases hreference : encoding.reference with
    | none => simp [apply, History.emission?, Emission.request?, hreference]
    | some reference =>
      have hrecord := References.perm_requests_record s.references s.position reference
      simpa [apply, History.emission?, Emission.request?, hreference] using
        hrecord.trans (List.perm_append_singleton _ _).symm
  | _ => simp [apply, History.emission?]

theorem filled_apply (h : s.references.Filled) (step : Step) :
    (s.apply step).references.Filled := by
  cases step with
  | emit statement encoding =>
    cases hreference : encoding.reference with
    | none => simpa [apply, hreference] using h
    | some reference => simpa [apply, hreference] using h.record s.position reference
  | _ => exact h

/-- No label stands past the end of the code. -/
def LabelsInside (s : Session) : Prop :=
  ∀ name place, s.labels.get? name = some place → place ≤ s.position

theorem labelsInside_apply (h : s.LabelsInside) (step : Step) : (s.apply step).LabelsInside := by
  intro name place hplace
  rw [position_apply]
  rw [labels_apply] at hplace
  cases hdeclared : (History.declaration? (s, step)).toList.lookup name with
  | none =>
    rw [hdeclared, Option.none_or] at hplace
    exact Nat.le_add_right_of_le (h name place hplace)
  | some place' =>
    rw [hdeclared, Option.some_or] at hplace
    cases hplace
    cases step with
    | declare label =>
      rw [History.declaration?, Option.toList_some, Dictionary.lookup_cons_eq_ite] at hdeclared
      split at hdeclared
      · cases hdeclared
        exact Nat.le_add_right _ _
      · cases hdeclared
    | _ => cases hdeclared

theorem position_emission? {step : Step} {m : Emission}
    (h : History.emission? (s, step) = some m) : m.position = s.position := by
  cases step with
  | emit statement encoding =>
    cases h
    rfl
  | _ => cases h

/-! ### Whole runs -/

namespace Run

variable {history : History}

theorem code (h : Run setup s history after) :
    after.code.toList = s.code.toList ++ Emission.bytes history.emissions := by
  induction h with
  | done s => exact (List.append_nil _).symm
  | refused _ _ ih => exact ih
  | taken _ _ ih =>
    rw [ih, code_apply, History.emissions_cons, Emission.bytes_append, List.append_assoc]
    rfl

theorem listing (h : Run setup s history after) :
    after.listing.toList = s.listing.toList ++ history.emissions.map Emission.entry := by
  induction h with
  | done s => exact (List.append_nil _).symm
  | refused _ _ ih => exact ih
  | taken _ _ ih =>
    rw [ih, listing_apply, History.emissions_cons, List.map_append, List.append_assoc]
    rfl

/-- The origin that is set last counts. -/
theorem origin (h : Run setup s history after) :
    after.origin = history.origins.getLast?.or s.origin := by
  induction h with
  | done s => rfl
  | refused _ _ ih => exact ih
  | @taken s _ _ _ step _ _ ih =>
    have hlast : (History.origin? (s.count, step)).toList.getLast? =
        History.origin? (s.count, step) := by
      cases History.origin? (s.count, step) <;> rfl
    rw [ih, origin_apply, History.origins_cons, List.getLast?_append, hlast, Option.or_assoc]
    rfl

/-- The declaration that is made last counts. -/
theorem labels (h : Run setup s history after) (name : Text) :
    after.labels.get? name = (history.lastDeclared? name).or (s.labels.get? name) := by
  induction h with
  | done s => rfl
  | refused _ _ ih => exact ih
  | @taken s _ _ _ step _ _ ih =>
    have hreverse : (History.declaration? (s.count, step)).toList.reverse =
        (History.declaration? (s.count, step)).toList := by
      cases History.declaration? (s.count, step) <;> rfl
    rw [ih, labels_apply, History.lastDeclared?, History.lastDeclared?, History.declarations_cons,
      List.reverse_append, hreverse, List.lookup_append, Option.or_assoc]
    rfl

/-- What waits for a label after a run waited before it or was emitted in it, each as often as it
was emitted. -/
theorem perm_requests (h : Run setup s history after) :
    after.references.requests.Perm
      (s.references.requests ++ history.emissions.filterMap Emission.request?) := by
  induction h with
  | done s => simp [History.emissions]
  | refused _ _ ih => exact ih
  | @taken s _ _ _ step _ _ ih =>
    rw [History.emissions_cons, List.filterMap_append, ← List.append_assoc]
    exact ih.trans ((requests_apply s.count step).append_right _)

theorem requests (h : Run setup s history after) (r : Request) :
    r ∈ after.references.requests ↔
      r ∈ s.references.requests ∨ ∃ m ∈ history.emissions, m.request? = some r := by
  rw [h.perm_requests.mem_iff, List.mem_append, List.mem_filterMap]

theorem filled (h : Run setup s history after) (hs : s.references.Filled) :
    after.references.Filled := by
  induction h with
  | done s => exact hs
  | refused _ _ ih => exact ih hs
  | @taken s _ _ _ step _ _ ih => exact ih (filled_apply (s := s.count) hs step)

theorem labelsInside (h : Run setup s history after) (hs : s.LabelsInside) :
    after.LabelsInside := by
  induction h with
  | done s => exact hs
  | refused _ _ ih => exact ih hs
  | @taken s _ _ _ step _ _ ih => exact ih (labelsInside_apply (s := s.count) hs step)

theorem tiles (h : Run setup s history after) : Emission.Tiles s.position history.emissions := by
  induction h with
  | done s => exact trivial
  | refused _ _ ih => exact ih
  | @taken s _ _ _ step _ _ ih =>
    have hposition := position_apply s.count step
    rw [hposition] at ih
    rw [History.emissions_cons]
    cases hm : History.emission? (s.count, step) with
    | none =>
      rw [hm] at ih
      exact ih
    | some m =>
      have hstart : m.position = s.count.position := position_emission? hm
      rw [hm, ← hstart, Option.toList_some, Emission.bytes_cons, Emission.bytes_nil,
        List.append_nil] at ih
      exact ⟨hstart, ih⟩

theorem encodes (h : Run setup s history after) {m : Emission} (hm : m ∈ history.emissions) :
    Encoding.ofStatement setup.table m.statement = .ok m.encoding := by
  induction h with
  | done s => cases hm
  | refused _ _ ih => exact ih hm
  | @taken s _ _ raw step acceptance _ ih =>
    rw [History.emissions_cons, List.mem_append, Option.mem_toList] at hm
    rcases hm with hm | hm
    · cases step with
      | emit statement encoding =>
        cases hm
        exact ofStatement_of_interpret acceptance
      | _ => cases hm
    · exact ih hm

end Run

/-! ## A sample -/

def sampleSetup : Setup := ⟨InstructionSet.table, {}⟩

/-- Lines that refer to a label before it is declared, are refused once, declare the label twice,
and set the origin at the end. -/
def sampleLines : List Text :=
  ["jp :a", ":a", "jr :a", "oops", "nop", ":a", "org 4000h"].map String.toList

end Session

end Z80
