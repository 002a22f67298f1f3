import Z80.Proofs.Run

/-!
# What waits for a label

In a session that has taken any lines, each request that waits for a label belongs to one emission:
it covers the zero bytes after an opcode of one byte, and no other emission has any of them.  So
requests do not overlap, and the end of the session can write all of them.
-/

namespace Z80

/-- Whether a position of the code belongs to an entry. -/
def Entry.Holds (e : Entry) (i : Nat) : Prop := e.position ≤ i ∧ i < e.position + e.length

/-! ## The emission of a request -/

namespace Emission

variable {m : Emission} {r : Request}

@[simp] theorem request?_eq_some :
    m.request? = some r ↔ m.encoding.reference = some r.reference ∧ r.site = m.position := by
  rw [request?, Option.map_eq_some_iff]
  constructor
  · rintro ⟨reference, hreference, rfl⟩
    exact ⟨hreference, rfl⟩
  · rintro ⟨hreference, hsite⟩
    exact ⟨r.reference, hreference, by rw [← hsite]⟩

@[simp] theorem holds_entry {i : Nat} : m.entry.Holds i ↔ m.position ≤ i ∧ i < m.stop := Iff.rfl

/-- An emission that waits for a label is an opcode of one byte and zeros. -/
theorem bytes_of_request {table : OpcodeTable}
    (hencodes : Encoding.ofStatement table m.statement = .ok m.encoding) (h : m.request? = some r) :
    ∃ opcode, m.encoding.bytes = opcode :: List.replicate r.size 0 :=
  Encoding.bytes_of_reference hencodes (request?_eq_some.mp h).1

theorem size_of_request {table : OpcodeTable}
    (hencodes : Encoding.ofStatement table m.statement = .ok m.encoding) (h : m.request? = some r) :
    m.size = 1 + r.size := by
  obtain ⟨opcode, hbytes⟩ := bytes_of_request hencodes h
  rw [size, hbytes, List.length_cons, List.length_replicate, Nat.add_comm]

/-- A request covers its emission but for the opcode. -/
theorem covers_iff (hposition : m.position = r.site) (hsize : m.size = 1 + r.size) {i : Nat} :
    r.Covers i ↔ m.position < i ∧ i < m.stop := by
  rw [Request.Covers, stop]
  omega

end Emission

/-! ## Sessions from the start -/

namespace Session.Run

variable {setup : Setup} {history : History} {s : Session}

theorem code_start (h : Run setup start history s) :
    s.code.toList = Emission.bytes history.emissions := h.code

theorem size_start (h : Run setup start history s) :
    s.code.size = (Emission.bytes history.emissions).length := by
  rw [← h.code_start, CodeBuffer.length_toList]

theorem listing_start (h : Run setup start history s) :
    s.listing.toList = history.emissions.map Emission.entry := h.listing

theorem tiles_start (h : Run setup start history s) : Emission.Tiles 0 history.emissions := h.tiles

theorem filled_start (h : Run setup start history s) : s.references.Filled :=
  h.filled References.filled_empty

theorem labelsInside_start (h : Run setup start history s) : s.LabelsInside := by
  refine h.labelsInside ?_
  intro name place hplace
  cases hplace

theorem requests_start (h : Run setup start history s) (r : Request) :
    r ∈ s.references.requests ↔ ∃ m ∈ history.emissions, m.request? = some r := by
  rw [h.requests]
  exact or_iff_right (List.not_mem_nil (a := r))

theorem emission_of_request (h : Run setup start history s) {r : Request}
    (hr : r ∈ s.references.requests) :
    ∃ m ∈ history.emissions, m.request? = some r ∧ m.position = r.site ∧ m.size = 1 + r.size := by
  obtain ⟨m, hm, hrequest⟩ := (h.requests_start r).mp hr
  exact ⟨m, hm, hrequest, (Emission.request?_eq_some.mp hrequest).2.symm,
    Emission.size_of_request (h.encodes hm) hrequest⟩

theorem request_inside (h : Run setup start history s) {r : Request}
    (hr : r ∈ s.references.requests) : r.site + 1 + r.size ≤ s.code.size := by
  obtain ⟨m, hm, -, hposition, hsize⟩ := h.emission_of_request hr
  have hstop := h.tiles_start.stop_le hm
  rw [h.size_start]
  rw [Emission.stop] at hstop
  omega

/-- The bytes that wait for a label are zero. -/
theorem getElem?_of_covers (h : Run setup start history s) {r : Request}
    (hr : r ∈ s.references.requests) {i : Nat} (hi : r.Covers i) : s.code.toList[i]? = some 0 := by
  obtain ⟨m, hm, hrequest, hposition, hsize⟩ := h.emission_of_request hr
  obtain ⟨opcode, hbytes⟩ := Emission.bytes_of_request (h.encodes hm) hrequest
  obtain ⟨hlo, hhi⟩ := hi
  have hoffset : i = m.position + (i - m.position) := by omega
  have hsucc : i - m.position = (i - (r.site + 1)) + 1 := by omega
  rw [h.code_start, hoffset, h.tiles_start.getElem?_bytes hm (by omega), hbytes, hsucc,
    List.getElem?_cons_succ, List.getElem?_replicate, if_pos (by omega)]

/-- Requests that share a byte are one. -/
theorem request_eq_of_covers (h : Run setup start history s) {r r' : Request}
    (hr : r ∈ s.references.requests) (hr' : r' ∈ s.references.requests) {i : Nat}
    (hi : r.Covers i) (hi' : r'.Covers i) : r' = r := by
  obtain ⟨m, hm, hrequest, hposition, hsize⟩ := h.emission_of_request hr
  obtain ⟨m', hm', hrequest', hposition', hsize'⟩ := h.emission_of_request hr'
  obtain ⟨hlo, hhi⟩ := (Emission.covers_iff hposition hsize).mp hi
  obtain ⟨hlo', hhi'⟩ := (Emission.covers_iff hposition' hsize').mp hi'
  have hsame : m' = m :=
    h.tiles_start.eq_of_shared hm hm' ⟨Nat.le_of_lt hlo, hhi⟩ ⟨Nat.le_of_lt hlo', hhi'⟩
  rw [hsame, hrequest] at hrequest'
  exact (Option.some.inj hrequest').symm

/-- The bytes that wait for a label belong to one entry of the listing. -/
theorem entry_of_request (h : Run setup start history s) {r : Request}
    (hr : r ∈ s.references.requests) :
    ∃ (j : Nat) (e : Entry),
      s.listing[j]? = some e ∧ e.position = r.site ∧ e.length = 1 + r.size ∧
        ∀ i, r.Covers i → ∀ (j' : Nat) (e' : Entry), s.listing[j']? = some e' →
          (e'.Holds i ↔ j' = j) := by
  obtain ⟨m, hm, -, hposition, hsize⟩ := h.emission_of_request hr
  obtain ⟨j, hj⟩ := List.getElem?_of_mem hm
  have hentries : ∀ k : Nat, s.listing[k]? = (history.emissions[k]?).map Emission.entry := by
    intro k
    rw [← Array.getElem?_toList, h.listing_start, List.getElem?_map]
  refine ⟨j, m.entry, by rw [hentries, hj]; rfl, hposition, hsize, ?_⟩
  intro i hi j' e' he'
  obtain ⟨hlo, hhi⟩ := (Emission.covers_iff hposition hsize).mp hi
  have hown : m.position ≤ i ∧ i < m.stop := ⟨Nat.le_of_lt hlo, hhi⟩
  rw [hentries] at he'
  obtain ⟨m', hj', rfl⟩ := Option.map_eq_some_iff.mp he'
  constructor
  · intro hholds
    exact h.tiles_start.index_eq hj hj' hown (Emission.holds_entry.mp hholds)
  · rintro rfl
    rw [hj] at hj'
    cases hj'
    exact Emission.holds_entry.mpr hown

end Session.Run

/-! ## The end of a session -/

namespace Session

variable {setup : Setup} {s : Session}

/-- The end of a session is that of writing what waits for a label. -/
theorem finish_outcome (hfilled : s.references.Filled) :
    (s.finish setup).2 =
      ((Request.writeAll s.labels (s.effectiveOrigin setup.settings) s.code
        s.references.requests).map fun code =>
          Assembly.mk code (s.effectiveOrigin setup.settings) s.labels s.listing.toList).mapError
        Failure.resolution := by
  rw [References.writeAll_requests hfilled, finish]
  split
  · next fault houtcome =>
    rw [houtcome]
    rfl
  · next patched houtcome =>
    rw [houtcome]
    rfl

/-- The end of a session writes what waits for a label. -/
theorem finish_eq_ok (hfilled : s.references.Filled) {asm : Assembly}
    (h : (s.finish setup).2 = .ok asm) :
    Request.writeAll s.labels asm.origin s.code s.references.requests = .ok asm.code ∧
      asm.origin = s.effectiveOrigin setup.settings ∧ asm.symbols = s.labels ∧
      asm.listing = s.listing.toList := by
  rw [finish] at h
  split at h
  · cases h
  · next patched houtcome =>
    cases h
    refine ⟨?_, rfl, rfl, rfl⟩
    rw [References.writeAll_requests hfilled, houtcome]
    rfl

theorem finish_eq_error (hfilled : s.references.Filled) {failure : Failure}
    (h : (s.finish setup).2 = .error failure) :
    ∃ fault, failure = .resolution fault ∧
      Request.writeAll s.labels (s.effectiveOrigin setup.settings) s.code s.references.requests =
        .error fault := by
  rw [finish] at h
  split at h
  · next fault houtcome =>
    cases h
    refine ⟨fault, rfl, ?_⟩
    rw [References.writeAll_requests hfilled, houtcome]
    rfl
  · cases h

end Session

end Z80
