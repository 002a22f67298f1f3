import Mathlib.Data.List.Chain
import Z80.Proofs.LineByLine
import Z80.Proofs.Linking

/-!
# A listing covers its code

The entries of an assembly lie next to each other, from the start of the code to its end, so their
bytes put together are the code.  They go by the numbers of their lines, and have those of the lines
that are statements and no others.
-/

namespace Z80

/-! ## Emissions side by side -/

namespace Emission.Tiles

variable {position : Nat} {ms : List Emission}

theorem head?_position (h : Tiles position ms) {m : Emission} (hm : ms.head? = some m) :
    m.position = position := by
  cases ms with
  | nil => cases hm
  | cons m' rest =>
    cases hm
    exact h.1

theorem isChain (h : Tiles position ms) :
    ms.IsChain fun m m' => m'.position = m.position + m.size := by
  induction ms generalizing position with
  | nil => exact .nil
  | cons m rest ih =>
    obtain ⟨-, hrest⟩ := h
    refine List.isChain_cons.mpr ⟨fun m' hm' => ?_, ih hrest⟩
    exact hrest.head?_position hm'

theorem getLast?_stop (h : Tiles 0 ms) {m : Emission} (hm : ms.getLast? = some m) :
    m.stop = (bytes ms).length := by
  obtain ⟨earlier, rfl⟩ := List.getLast?_eq_some_iff.mp hm
  rw [stop, h.position_append, bytes_append, bytes_cons, bytes_nil, List.append_nil,
    List.length_append, Nat.zero_add]
  rfl

/-- Slices side by side, up to the end of a list, are the rest of the list. -/
theorem flatMap_slices (h : Tiles position ms) {l : List UInt8}
    (hlength : l.length = position + (bytes ms).length) :
    ms.flatMap (fun m => (l.drop m.position).take m.size) = l.drop position := by
  induction ms generalizing position with
  | nil => exact (List.drop_eq_nil_of_le (Nat.le_of_eq hlength)).symm
  | cons m rest ih =>
    obtain ⟨rfl, hrest⟩ := h
    have hlater : l.length = m.stop + (bytes rest).length := by
      rw [hlength, bytes_cons, List.length_append, stop, size, Nat.add_assoc]
    rw [List.flatMap_cons, ih hrest hlater, stop, ← List.drop_drop, List.take_append_drop]

end Emission.Tiles

/-! ## Lines of emissions -/

namespace History

theorem emission?_eq_some {x : Session × Step} {m : Emission} (h : emission? x = some m) :
    x.2 = .emit m.statement m.encoding ∧ m.line = x.1.lines := by
  obtain ⟨s, step⟩ := x
  cases step with
  | emit statement encoding =>
    cases h
    exact ⟨rfl, rfl⟩
  | _ => cases h

theorem exists_mem_emissions_iff {history : History} {n : Nat} :
    (∃ m ∈ history.emissions, m.line = n) ↔
      ∃ statement encoding t, (t, .emit statement encoding) ∈ history ∧ t.lines = n := by
  simp only [emissions, List.mem_filterMap]
  constructor
  · rintro ⟨m, ⟨⟨t, step⟩, hx, hm⟩, rfl⟩
    obtain ⟨rfl, hline⟩ := emission?_eq_some hm
    exact ⟨m.statement, m.encoding, t, hx, hline.symm⟩
  · rintro ⟨statement, encoding, t, hx, rfl⟩
    exact ⟨⟨t.lines, t.position, statement, encoding⟩, ⟨_, hx, rfl⟩, rfl⟩

end History

namespace Session

namespace Run

variable {setup : Setup} {history : History} {s after : Session}

theorem line_bounds (h : Run setup s history after) {m : Emission} (hm : m ∈ history.emissions) :
    s.lines < m.line ∧ m.line ≤ after.lines := by
  obtain ⟨x, hx, hxm⟩ := List.mem_filterMap.mp hm
  rw [(History.emission?_eq_some hxm).2]
  exact ⟨h.lines_lt hx, h.lines_le hx⟩

theorem pairwise_line (h : Run setup s history after) :
    history.emissions.Pairwise fun m m' => m.line < m'.line := by
  refine h.pairwise_lines.filterMap History.emission? ?_
  intro x y hxy m hm m' hm'
  rw [(History.emission?_eq_some hm).2, (History.emission?_eq_some hm').2]
  exact hxy

/-- Code of the size that a run leaves is what its statements cover. -/
theorem flatMap_bytesOf (h : Run setup start history s) {asm : Assembly}
    (hsize : asm.code.size = s.code.size) :
    (history.emissions.map Emission.entry).flatMap asm.bytesOf = asm.code.toList := by
  have hslices := h.tiles_start.flatMap_slices (l := asm.code.toList)
    (by rw [CodeBuffer.length_toList, hsize, h.size_start, Nat.zero_add])
  rw [List.flatMap_map, ← List.drop_zero (l := asm.code.toList), ← hslices]
  exact List.flatMap_congr fun m hm => h.bytesOf_entry hsize hm

end Run

/-- The lines of the statements of a run are those that are accepted as statements. -/
theorem exists_emission_line_iff {setup : Setup} {s : Session} {lines : List Text} {n : Nat} :
    (∃ m ∈ (s.steps setup lines).emissions, m.line = n) ↔
      ∃ i statement encoding, n = s.lines + (i + 1) ∧
        (s.lineSteps setup lines)[i]? = some (some (.emit statement encoding)) := by
  rw [History.exists_mem_emissions_iff]
  simp only [exists_mem_steps_iff]
  constructor
  · rintro ⟨statement, encoding, i, rfl, hi⟩
    exact ⟨i, statement, encoding, rfl, hi⟩
  · rintro ⟨i, statement, encoding, rfl, hi⟩
    exact ⟨statement, encoding, i, rfl, hi⟩

/-- Whatever lines a session has taken, if it ends in an assembly: the entries lie side by side, the
first at the start of the code and the last at its end; their bytes put together are the code; and
their lines grow, are among those taken, and are those that are accepted as statements. -/
theorem listing_tiles_code (setup : Setup) (lines : List Text) (asm : Assembly)
    (hfinish : ((start.replay setup lines).1.finish setup).2 = .ok asm) :
    (∀ e, asm.listing.head? = some e → e.position = 0) ∧
    (asm.listing.IsChain fun e e' => e'.position = e.position + e.length) ∧
    (∀ e, asm.listing.getLast? = some e → e.position + e.length = asm.code.size) ∧
    (asm.listing = [] → asm.code.toList = []) ∧
    asm.listing.flatMap asm.bytesOf = asm.code.toList ∧
    (asm.listing.Pairwise fun e e' => e.line < e'.line) ∧
    (∀ e ∈ asm.listing, 1 ≤ e.line ∧ e.line ≤ lines.length) ∧
    ∀ n, (∃ e ∈ asm.listing, e.line = n) ↔
      ∃ i statement encoding, n = i + 1 ∧
        (start.lineSteps setup lines)[i]? = some (some (.emit statement encoding)) := by
  have hrun := run_replay setup start lines
  obtain ⟨hwrite, -, -, hlisting⟩ := finish_eq_ok hrun.filled_start hfinish
  have hsize := Request.size_writeAll hwrite
  rw [hrun.listing_start] at hlisting
  have hbytes : asm.listing.flatMap asm.bytesOf = asm.code.toList := by
    rw [hlisting, hrun.flatMap_bytesOf hsize]
  refine ⟨?_, ?_, ?_, ?_, hbytes, ?_, ?_, ?_⟩
  · intro e he
    rw [hlisting, List.head?_map, Option.map_eq_some_iff] at he
    obtain ⟨m, hm, rfl⟩ := he
    exact hrun.tiles_start.head?_position hm
  · rw [hlisting]
    exact List.isChain_map_of_isChain Emission.entry (fun _ _ h => h) hrun.tiles_start.isChain
  · intro e he
    rw [hlisting, List.getLast?_map, Option.map_eq_some_iff] at he
    obtain ⟨m, hm, rfl⟩ := he
    rw [hsize, hrun.size_start]
    exact hrun.tiles_start.getLast?_stop hm
  · intro hnil
    rw [← hbytes, hnil, List.flatMap_nil]
  · rw [hlisting]
    exact hrun.pairwise_line.map Emission.entry fun _ _ h => h
  · intro e he
    rw [hlisting] at he
    obtain ⟨m, hm, rfl⟩ := List.mem_map.mp he
    obtain ⟨hlo, hhi⟩ := hrun.line_bounds hm
    rw [lines_replay] at hhi
    have hstart : start.lines = 0 := rfl
    exact ⟨hlo, show m.line ≤ lines.length by omega⟩
  · intro n
    have hlines : (∃ e ∈ asm.listing, e.line = n) ↔
        ∃ m ∈ (start.steps setup lines).emissions, m.line = n := by
      rw [hlisting]
      simp [Emission.entry]
    rw [hlines, exists_emission_line_iff]
    simp only [start, Nat.zero_add]

/-- The sample has statements in its first, third and fifth lines. -/
theorem sampleAssembly_tiles_code :
    ((start.replay sampleSetup sampleLines).1.finish sampleSetup).2 = .ok sampleAssembly ∧
    sampleAssembly.listing.flatMap sampleAssembly.bytesOf = sampleAssembly.code.toList ∧
    sampleAssembly.listing.map Entry.line = [1, 3, 5] ∧
    ∃ i statement encoding, 5 = i + 1 ∧
      (start.lineSteps sampleSetup sampleLines)[i]? = some (some (.emit statement encoding)) := by
  have hfinish : ((start.replay sampleSetup sampleLines).1.finish sampleSetup).2 =
      .ok sampleAssembly := by
    decide +kernel
  obtain ⟨-, -, -, -, hbytes, -, -, hlines⟩ :=
    listing_tiles_code sampleSetup sampleLines sampleAssembly hfinish
  exact ⟨hfinish, hbytes, rfl, (hlines 5).mp ⟨_, List.mem_of_getLast? rfl, rfl⟩⟩

end Session

end Z80
