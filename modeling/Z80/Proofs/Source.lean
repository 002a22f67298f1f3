import Z80.Listing
import Z80.Proofs.Pending
import Z80.Proofs.Rereading
import Z80.Proofs.Symbols

/-!
# Listings as sources

A listing is a source again: the origin, and the rows of the listing without addresses and bytes.
If no variable takes part, this source has the assembly that the listing is of, but for the numbers
of the lines.
-/

namespace Z80

/-! ## Symbols in the order of a listing -/

namespace Symbol

theorem position_le_of_precedes {a b : Symbol} (h : a.precedes b = true) :
    a.position ≤ b.position := by
  simp only [precedes, Bool.or_eq_true, Bool.and_eq_true, decide_eq_true_eq, beq_iff_eq] at h
  omega

theorem precedes_iff {a b : Symbol} :
    a.precedes b = true ↔
      a.position < b.position ∨ a.position = b.position ∧ ¬ b.name < a.name := by
  simp only [precedes, Bool.or_eq_true, Bool.and_eq_true, decide_eq_true_eq, beq_iff_eq,
    Bool.not_eq_true', decide_eq_false_iff_not]

theorem precedes_trans (a b c : Symbol) (hab : a.precedes b = true) (hbc : b.precedes c = true) :
    a.precedes c = true := by
  rw [precedes_iff] at hab hbc ⊢
  rcases hab with hab | ⟨hab, hnames⟩
  · rcases hbc with hbc | ⟨hbc, -⟩ <;> exact .inl (by omega)
  · rcases hbc with hbc | ⟨hbc, hnames'⟩
    · exact .inl (by omega)
    · exact .inr ⟨by omega, Text.not_lt_trans hnames hnames'⟩

theorem precedes_total (a b : Symbol) : (a.precedes b || b.precedes a) = true := by
  rw [Bool.or_eq_true, precedes_iff, precedes_iff]
  rcases Nat.lt_trichotomy a.position b.position with h | h | h
  · exact .inl (.inl h)
  · by_cases hlt : b.name < a.name
    · exact .inr (.inr ⟨h.symm, Text.not_lt_of_lt hlt⟩)
    · exact .inl (.inr ⟨h, hlt⟩)
  · exact .inr (.inl h)

end Symbol

namespace Assembly

variable (asm : Assembly)

@[simp] theorem mem_orderedSymbols {s : Symbol} :
    s ∈ asm.orderedSymbols ↔ asm.symbols.get? s.name = some s.position := by
  rw [orderedSymbols, List.mem_mergeSort, List.mem_map, ← Dictionary.mem_entries]
  constructor
  · rintro ⟨e, he, rfl⟩
    exact he
  · intro h
    exact ⟨_, h, rfl⟩

theorem sorted_orderedSymbols : asm.orderedSymbols.Pairwise fun a b => a.position ≤ b.position :=
  (List.pairwise_mergeSort Symbol.precedes_trans Symbol.precedes_total _).imp
    Symbol.position_le_of_precedes

theorem distinct_orderedSymbols : asm.orderedSymbols.Pairwise fun a b => a.name ≠ b.name := by
  rw [orderedSymbols, (List.mergeSort_perm _ _).pairwise_iff Ne.symm, List.pairwise_map]
  refine asm.symbols.sorted.imp fun hlt heq => ?_
  dsimp only at heq
  rw [heq] at hlt
  exact List.lt_irrefl _ hlt

end Assembly

/-! ## The labels that symbols declare -/

namespace Dictionary

/-- A dictionary is what it says of each key. -/
theorem ext_get? {α : Type} {d e : Dictionary α} (h : ∀ key, d.get? key = e.get? key) : d = e := by
  have hnodup : ∀ d : Dictionary α, d.entries.Nodup := by
    intro d
    refine d.sorted.imp ?_
    rintro a _ hlt rfl
    exact List.lt_irrefl _ hlt
  have hperm : d.entries.Perm e.entries := by
    rw [List.perm_ext_iff_of_nodup (hnodup d) (hnodup e)]
    rintro ⟨key, value⟩
    simp [h]
  refine Dictionary.ext (hperm.eq_of_pairwise ?_ d.sorted e.sorted)
  exact fun a b _ _ hab hba => absurd (List.lt_trans hab hba) (List.lt_irrefl _)

/-- Binds each symbol to its position. -/
def declare (labels : Dictionary Nat) (symbols : List Symbol) : Dictionary Nat :=
  symbols.foldl (fun d s => d.insert s.name s.position) labels

variable {labels : Dictionary Nat} {symbols : List Symbol}

@[simp] theorem declare_append (labels : Dictionary Nat) (symbols symbols' : List Symbol) :
    labels.declare (symbols ++ symbols') = (labels.declare symbols).declare symbols' :=
  List.foldl_append

theorem get?_declare_of_notMem {name : Text} (h : ∀ s ∈ symbols, s.name ≠ name) :
    (labels.declare symbols).get? name = labels.get? name := by
  induction symbols generalizing labels with
  | nil => rfl
  | cons s rest ih =>
    change ((labels.insert s.name s.position).declare rest).get? name = _
    rw [ih fun s' hs' => h s' (List.mem_cons_of_mem _ hs'), get?_insert,
      if_neg (Ne.symm (h s List.mem_cons_self))]

theorem get?_declare_of_mem (hdistinct : symbols.Pairwise fun a b => a.name ≠ b.name) {s : Symbol}
    (hs : s ∈ symbols) : (labels.declare symbols).get? s.name = some s.position := by
  induction symbols generalizing labels with
  | nil => cases hs
  | cons s' rest ih =>
    obtain ⟨hfirst, hrest⟩ := List.pairwise_cons.mp hdistinct
    change ((labels.insert s'.name s'.position).declare rest).get? s.name = _
    rcases List.mem_cons.mp hs with rfl | hs
    · rw [get?_declare_of_notMem fun t ht => (hfirst t ht).symm, get?_insert, if_pos rfl]
    · exact ih hrest hs

end Dictionary

@[simp] theorem Assembly.declare_orderedSymbols (asm : Assembly) :
    Dictionary.empty.declare asm.orderedSymbols = asm.symbols := by
  refine Dictionary.ext_get? fun name => ?_
  cases h : asm.symbols.get? name with
  | some place =>
    exact Dictionary.get?_declare_of_mem asm.distinct_orderedSymbols
      (s := ⟨name, place⟩) (asm.mem_orderedSymbols.mpr h)
  | none =>
    rw [Dictionary.get?_declare_of_notMem, Dictionary.get?_empty]
    rintro s hs rfl
    rw [asm.mem_orderedSymbols, h] at hs
    cases hs

/-! ## What statements leave -/

/-- An entry without the number of its line. -/
def Entry.unnumbered (e : Entry) : Entry := { e with line := 0 }

/-- What statements leave in a session, without the numbers of their lines. -/
structure Emitted where
  code : CodeBuffer
  references : References
  listing : List Entry

/-- Adds what one statement leaves. -/
def Emitted.add (x : Emitted) (statement : Statement) (encoding : Encoding) : Emitted where
  code := x.code.emit encoding.bytes
  references :=
    match encoding.reference with
    | some reference => x.references.record x.code.size reference
    | none => x.references
  listing := x.listing ++ [⟨0, x.code.size, encoding.bytes.length, statement.text⟩]

/-- Adds what emissions leave, one after the other. -/
def Emitted.addAll (x : Emitted) (ms : List Emission) : Emitted :=
  ms.foldl (fun x m => x.add m.statement m.encoding) x

namespace Session

variable {setup : Setup} {s after : Session}

def emitted (s : Session) : Emitted := ⟨s.code, s.references, s.listing.toList.map Entry.unnumbered⟩

@[simp] theorem emitted_emit (s : Session) (statement : Statement) (encoding : Encoding) :
    (s.apply (.emit statement encoding)).emitted = s.emitted.add statement encoding := by
  rw [emitted, apply]
  simp only [Array.toList_push, List.map_append]
  rfl

/-- Only the statements of a run count for what it leaves. -/
theorem Run.emitted {history : History} (h : Run setup s history after) :
    after.emitted = s.emitted.addAll history.emissions := by
  induction h with
  | done s => rfl
  | refused _ _ ih => exact ih
  | @taken s _ _ _ step _ _ ih =>
    rw [ih, History.emissions_cons]
    cases step with
    | emit statement encoding =>
      rw [emitted_emit]
      rfl
    | _ => rfl

/-! ## Labels on lines of their own -/

variable {symbols : List Symbol}

/-- The session after the lines of some labels. -/
def declare (s : Session) (symbols : List Symbol) : Session :=
  { s with labels := s.labels.declare symbols, lines := s.lines + symbols.length }

/-- Symbols at the position of a session are declared by their lines. -/
theorem advance_labels (hbindings : s.bindings = .empty)
    (hrereads : ∀ x ∈ symbols, (Step.declare x.name).Rereads setup.table)
    (hdistinct : symbols.Pairwise fun a b => a.name ≠ b.name)
    (hfresh : ∀ x ∈ symbols, s.labels.get? x.name = none)
    (hhere : ∀ x ∈ symbols, x.position = s.position) :
    s.advance setup (symbols.map fun x => ':' :: x.name) = .ok (s.declare symbols) := by
  induction symbols generalizing s with
  | nil => rfl
  | cons x rest ih =>
    obtain ⟨hfirst, hrest⟩ := List.pairwise_cons.mp hdistinct
    have hstep := interpret_label (hrereads x List.mem_cons_self) hbindings
      (hfresh x List.mem_cons_self)
    have hdeclare : s.declare (x :: rest) = (s.count.apply (.declare x.name)).declare rest := by
      rw [declare, declare, List.length_cons, ← Nat.add_assoc, Nat.add_right_comm]
      change { s with labels := (s.labels.insert x.name x.position).declare rest, lines := _ } = _
      rw [hhere x List.mem_cons_self]
      rfl
    rw [List.map_cons, advance, hstep, hdeclare]
    refine ih hbindings ?_ hrest ?_ ?_
    · exact fun y hy => hrereads y (List.mem_cons_of_mem _ hy)
    · intro y hy
      change (s.labels.insert x.name s.position).get? y.name = none
      rw [Dictionary.get?_insert, if_neg (hfirst y hy).symm, hfresh y (List.mem_cons_of_mem _ hy)]
    · exact fun y hy => hhere y (List.mem_cons_of_mem _ hy)

end Session

/-! ## Rows as lines -/

/-- The canonical line of a row. -/
def Row.source : Row → Text
  | .label symbol => ':' :: symbol.name
  | .entry e => e.text

/-- Symbols that are still to be declared, in the order of a listing, where the given emissions
follow: each stands at the position of one of them, or at the end. -/
structure Symbol.Placed (labels : Labels) (position : Nat) (ms : List Emission)
    (symbols : List Symbol) :
    Prop where
  sorted : symbols.Pairwise fun a b => a.position ≤ b.position
  distinct : symbols.Pairwise fun a b => a.name ≠ b.name
  fresh : ∀ x ∈ symbols, labels.get? x.name = none
  le : ∀ x ∈ symbols, position ≤ x.position
  boundary : ∀ x ∈ symbols,
    (∃ m ∈ ms, x.position = m.position) ∨ x.position = position + (Emission.bytes ms).length

namespace Symbol.Placed

variable {labels : Labels} {position : Nat} {m : Emission} {ms : List Emission}
    {symbols : List Symbol}

/-- The symbols before an emission stand at its position. -/
theorem takeWhile_position (h : Placed labels position ms symbols) {x : Symbol}
    (hx : x ∈ symbols.takeWhile (·.position ≤ position)) : x.position = position := by
  have hle := h.le x (List.takeWhile_subset _ hx)
  have hge : x.position ≤ position := by simpa using List.mem_takeWhile_imp hx
  omega

theorem lt_of_mem_dropWhile (h : Placed labels position ms symbols) {x : Symbol}
    (hx : x ∈ symbols.dropWhile (·.position ≤ position)) : position < x.position := by
  have hsorted := h.sorted.sublist (List.dropWhile_sublist (·.position ≤ position))
  cases hdrop : symbols.dropWhile (·.position ≤ position) with
  | nil =>
    rw [hdrop] at hx
    cases hx
  | cons first rest =>
    have hfirst : position < first.position := by
      have hnot := List.head?_dropWhile_not (·.position ≤ position) symbols
      rw [hdrop] at hnot
      simpa using hnot
    rw [hdrop] at hx hsorted
    rcases List.mem_cons.mp hx with rfl | hx
    · exact hfirst
    · have hle := (List.pairwise_cons.mp hsorted).1 x hx
      omega

/-- The other symbols stand behind it. -/
theorem dropWhile (h : Placed labels position (m :: ms) symbols)
    (htiles : Emission.Tiles position (m :: ms)) :
    Placed (labels.declare (symbols.takeWhile (·.position ≤ position))) m.stop ms
      (symbols.dropWhile (·.position ≤ position)) := by
  obtain ⟨hposition, htiles⟩ := htiles
  have hsubset : ∀ x ∈ symbols.dropWhile (·.position ≤ position), x ∈ symbols := fun x hx =>
    (List.dropWhile_sublist (·.position ≤ position)).subset hx
  have hend : position + (Emission.bytes (m :: ms)).length =
      m.stop + (Emission.bytes ms).length := by
    rw [Emission.bytes_cons, List.length_append, Emission.stop, Emission.size, hposition]
    omega
  have hboundary : ∀ x ∈ symbols.dropWhile (·.position ≤ position),
      (∃ m' ∈ ms, x.position = m'.position) ∨ x.position = m.stop + (Emission.bytes ms).length := by
    intro x hx
    have hlt := h.lt_of_mem_dropWhile hx
    rcases h.boundary x (hsubset x hx) with ⟨m', hm', hx'⟩ | hx'
    · rcases List.mem_cons.mp hm' with rfl | hm'
      · omega
      · exact .inl ⟨m', hm', hx'⟩
    · exact .inr (hx'.trans hend)
  refine ⟨h.sorted.sublist (List.dropWhile_sublist _),
    h.distinct.sublist (List.dropWhile_sublist _), ?_, ?_, hboundary⟩
  · intro x hx
    -- the labels just declared have other names
    have hdistinct := h.distinct
    rw [← List.takeWhile_append_dropWhile (p := (·.position ≤ position)) (l := symbols),
      List.pairwise_append] at hdistinct
    rw [Dictionary.get?_declare_of_notMem fun y hy => hdistinct.2.2 y hy x hx]
    exact h.fresh x (hsubset x hx)
  · intro x hx
    rcases hboundary x hx with ⟨m', hm', hx'⟩ | hx'
    · rw [hx']
      exact htiles.le_position hm'
    · omega

end Symbol.Placed

namespace Session

variable {setup : Setup} {s : Session} {ms : List Emission} {symbols : List Symbol}

/-- Lines of labels, and behind them that of a statement. -/
theorem advance_labels_statement {m : Emission} (hbindings : s.bindings = .empty)
    (hstatement : (Step.emit m.statement m.encoding).Rereads setup.table)
    (hnames : ∀ x ∈ symbols, (Step.declare x.name).Rereads setup.table)
    (hdistinct : symbols.Pairwise fun a b => a.name ≠ b.name)
    (hfresh : ∀ x ∈ symbols, s.labels.get? x.name = none)
    (hhere : ∀ x ∈ symbols, x.position = s.position) :
    ∃ after,
      s.advance setup (symbols.map (fun x => ':' :: x.name) ++ [m.statement.text]) = .ok after ∧
      after.bindings = .empty ∧ after.position = s.position + m.size ∧
      after.emitted = s.emitted.add m.statement m.encoding ∧
      after.labels = s.labels.declare symbols ∧ after.origin = s.origin := by
  have hstep : (s.declare symbols).interpret setup m.statement.text =
      .ok (.emit m.statement m.encoding) := interpret_text hstatement hbindings
  refine ⟨(s.declare symbols).count.apply (.emit m.statement m.encoding), ?_, hbindings,
    CodeBuffer.size_emit _ _, emitted_emit _ _ _, rfl, rfl⟩
  rw [advance_append, advance_labels hbindings hnames hdistinct hfresh hhere]
  change (s.declare symbols).advance setup [m.statement.text] = _
  rw [advance, hstep]
  rfl

/-- The rows of a listing, taken as lines, emit its statements and declare its symbols. -/
theorem advance_rows (setup : Setup) (hbindings : s.bindings = .empty)
    (htiles : Emission.Tiles s.position ms)
    (hstatements : ∀ m ∈ ms, (Step.emit m.statement m.encoding).Rereads setup.table)
    (hnames : ∀ x ∈ symbols, (Step.declare x.name).Rereads setup.table)
    (hplaced : Symbol.Placed s.labels s.position ms symbols) :
    ∃ after,
      s.advance setup ((interleave symbols (ms.map Emission.entry)).map Row.source) = .ok after ∧
      after.emitted = s.emitted.addAll ms ∧ after.labels = s.labels.declare symbols ∧
      after.origin = s.origin := by
  induction ms generalizing s symbols with
  | nil =>
    have hhere : ∀ x ∈ symbols, x.position = s.position := by
      intro x hx
      rcases hplaced.boundary x hx with ⟨m, hm, -⟩ | hend
      · cases hm
      · exact hend
    have hlabels := advance_labels hbindings hnames hplaced.distinct hplaced.fresh hhere
    rw [List.map_nil, interleave, List.map_map]
    exact ⟨_, hlabels, rfl, rfl, rfl⟩
  | cons m ms ih =>
    -- the symbols here come first, then the statement, and the other symbols are placed behind it
    have htake : ∀ x ∈ symbols.takeWhile (·.position ≤ s.position), x ∈ symbols := fun x hx =>
      List.takeWhile_subset _ hx
    have hdrop : ∀ x ∈ symbols.dropWhile (·.position ≤ s.position), x ∈ symbols := fun x hx =>
      (List.dropWhile_sublist _).subset hx
    obtain ⟨middle, hmiddle, hbindings', hstop, hemitted, hlabels, horigin⟩ :=
      advance_labels_statement hbindings (hstatements m List.mem_cons_self)
        (fun x hx => hnames x (htake x hx)) (hplaced.distinct.sublist (List.takeWhile_sublist _))
        (fun x hx => hplaced.fresh x (htake x hx)) fun x hx => hplaced.takeWhile_position hx
    have hposition : m.position = s.position := htiles.1
    have hnext : middle.position = m.stop := by
      rw [hstop, Emission.stop, hposition]
    have hplaced' := hplaced.dropWhile htiles
    rw [← hlabels, ← hnext] at hplaced'
    obtain ⟨after, hafter, hemitted', hlabels', horigin'⟩ :=
      ih hbindings' (hnext ▸ htiles.2) (fun m' hm' => hstatements m' (List.mem_cons_of_mem _ hm'))
        (fun x hx => hnames x (hdrop x hx)) hplaced'
    refine ⟨after, ?_, ?_, ?_, horigin'.trans horigin⟩
    · have hrows : (interleave symbols ((m :: ms).map Emission.entry)).map Row.source =
          ((symbols.takeWhile (·.position ≤ s.position)).map (fun x => ':' :: x.name) ++
            [m.statement.text]) ++
          (interleave (symbols.dropWhile (·.position ≤ s.position))
            (ms.map Emission.entry)).map Row.source := by
        rw [← hposition, List.map_cons, interleave, List.map_append, List.map_map, List.map_cons,
          List.append_assoc]
        rfl
      rw [hrows, advance_append, hmiddle]
      exact hafter
    · rw [hemitted', hemitted]
      rfl
    · rw [hlabels', hlabels, ← Dictionary.declare_append, List.takeWhile_append_dropWhile]

/-! ## The source of a listing -/

theorem Run.boundary_of_label {history : History} (h : Run setup start history s) {name : Text}
    {place : Nat} (hplace : s.labels.get? name = some place) :
    (∃ m ∈ history.emissions, place = m.position) ∨
      place = (Emission.bytes history.emissions).length := by
  obtain ⟨earlier, t, later, rfl, hlast⟩ :=
    History.exists_last_declaration (h.isSome_label_iff.mp (Option.isSome_of_mem hplace))
  rw [h.get?_of_last hlast] at hplace
  cases hplace
  obtain ⟨-, -, -, hlater⟩ := h.split
  have htiles : Emission.Tiles t.position (History.emissions later) := hlater.tiles
  rw [History.emissions_append, History.emissions_cons]
  change (∃ m ∈ History.emissions earlier ++ History.emissions later, t.position = m.position) ∨
    t.position = (Emission.bytes (History.emissions earlier ++ History.emissions later)).length
  cases hnext : History.emissions later with
  | nil => exact .inr (by rw [h.position_split, List.append_nil])
  | cons m rest =>
    rw [hnext] at htiles
    exact .inl ⟨m, List.mem_append_right _ List.mem_cons_self, htiles.1.symm⟩

end Session

theorem mem_interleave {symbols : List Symbol} {entries : List Entry} {row : Row}
    (h : row ∈ interleave symbols entries) :
    (∃ x ∈ symbols, row = .label x) ∨ ∃ e ∈ entries, row = .entry e := by
  induction entries generalizing symbols with
  | nil =>
    obtain ⟨x, hx, rfl⟩ := List.mem_map.mp h
    exact .inl ⟨x, hx, rfl⟩
  | cons e rest ih =>
    rw [interleave, List.mem_append, List.mem_cons] at h
    rcases h with h | rfl | h
    · obtain ⟨x, hx, rfl⟩ := List.mem_map.mp h
      exact .inl ⟨x, List.takeWhile_subset _ hx, rfl⟩
    · exact .inr ⟨e, List.mem_cons_self, rfl⟩
    · rcases ih h with ⟨x, hx, rfl⟩ | ⟨e', he', rfl⟩
      · exact .inl ⟨x, (List.dropWhile_sublist _).subset hx, rfl⟩
      · exact .inr ⟨e', List.mem_cons_of_mem _ he', rfl⟩

namespace Assembly

/-- The lines of a listing: the origin if there is one, and the rows. -/
def sourceLines (asm : Assembly) : List Text :=
  (asm.origin.map Line.originText).toList ++ asm.rows.map Row.source

/-- A listing as a source. -/
def source (asm : Assembly) : Text := asm.sourceLines.flatMap (· ++ ['\n'])

end Assembly

namespace Session

variable {setup : Setup} {s : Session}

theorem advance_origin (setup : Setup) (origin : Option Address) :
    ∃ first, start.advance setup (origin.map Line.originText).toList = .ok first ∧
      first.bindings = .empty ∧ first.emitted = start.emitted ∧ first.labels = .empty ∧
      first.origin = origin := by
  cases origin with
  | none => exact ⟨start, rfl, rfl, rfl, rfl, rfl⟩
  | some address =>
    refine ⟨start.count.apply (.load address), ?_, rfl, rfl, rfl, rfl⟩
    change start.advance setup [Line.originText address] = _
    rw [advance, interpret_originText address rfl]
    rfl

/-- The end of a session depends on what statements left, on the labels and on the origin. -/
theorem finish_of_emitted {again : Session} (hemitted : again.emitted = s.emitted)
    (hlabels : again.labels = s.labels) (hs : s.references.Filled) {setup' : Setup}
    (horigin : again.effectiveOrigin setup'.settings = s.effectiveOrigin setup.settings)
    {asm : Assembly} (h : (s.finish setup).2 = .ok asm) :
    (again.finish setup').2 = .ok { asm with listing := again.listing.toList } := by
  have hcode : again.code = s.code := congrArg Emitted.code hemitted
  have hreferences : again.references = s.references := congrArg Emitted.references hemitted
  obtain ⟨hwrite, heffective, hsymbols, -⟩ := finish_eq_ok hs h
  rw [finish_outcome (hreferences ▸ hs), hcode, hreferences, hlabels, horigin, ← heffective, hwrite,
    ← hsymbols]
  rfl

section Again

variable {history : History} {asm : Assembly}

theorem rereads_emission {table : OpcodeTable} (hrereads : ∀ x ∈ history, x.2.Rereads table)
    {m : Emission} (hm : m ∈ history.emissions) :
    (Step.emit m.statement m.encoding).Rereads table := by
  obtain ⟨x, hx, hemission⟩ := List.mem_filterMap.mp hm
  rw [← (History.emission?_eq_some hemission).1]
  exact hrereads x hx

theorem Run.rereads_symbol {table : OpcodeTable} (hrun : Run setup start history s)
    (hrereads : ∀ x ∈ history, x.2.Rereads table) (hsymbols : asm.symbols = s.labels) {x : Symbol}
    (hx : x ∈ asm.orderedSymbols) : (Step.declare x.name).Rereads table := by
  rw [asm.mem_orderedSymbols, hsymbols] at hx
  obtain ⟨y, hy, hdeclared⟩ := hrun.isSome_label_iff.mp (Option.isSome_of_mem hx)
  exact hdeclared ▸ hrereads y hy

theorem Run.placed_orderedSymbols (hrun : Run setup start history s)
    (hsymbols : asm.symbols = s.labels) :
    Symbol.Placed .empty 0 history.emissions asm.orderedSymbols where
  sorted := asm.sorted_orderedSymbols
  distinct := asm.distinct_orderedSymbols
  fresh _ _ := rfl
  le _ _ := Nat.zero_le _
  boundary x hx := by
    rw [asm.mem_orderedSymbols, hsymbols] at hx
    rw [Nat.zero_add]
    exact hrun.boundary_of_label hx

/-- The lines of a listing make the statements and the labels of the run again. -/
theorem Run.advance_sourceLines (setup' : Setup) (hrun : Run setup start history s)
    (hrereads : ∀ x ∈ history, x.2.Rereads setup'.table) (hsymbols : asm.symbols = s.labels)
    (hlisting : asm.listing = s.listing.toList) :
    ∃ after, start.advance setup' asm.sourceLines = .ok after ∧ after.emitted = s.emitted ∧
      after.labels = s.labels ∧ after.origin = asm.origin := by
  obtain ⟨first, hfirst, hbindings, hemitted, hlabels, horigin⟩ := advance_origin setup' asm.origin
  have hposition : first.position = 0 := congrArg (fun x : Emitted => x.code.size) hemitted
  obtain ⟨after, hafter, hemitted', hlabels', horigin'⟩ :=
    advance_rows setup' hbindings (hposition ▸ hrun.tiles)
      (fun m hm => rereads_emission hrereads hm)
      (fun x hx => hrun.rereads_symbol hrereads hsymbols hx)
      (by rw [hlabels, hposition]; exact hrun.placed_orderedSymbols hsymbols)
  refine ⟨after, ?_, ?_, ?_, horigin'.trans horigin⟩
  · rw [Assembly.sourceLines, advance_append, hfirst, Assembly.rows, hlisting, hrun.listing_start]
    exact hafter
  · rw [hemitted', hemitted, hrun.emitted]
  · rw [hlabels', hlabels, asm.declare_orderedSymbols, hsymbols]

theorem Run.isLine_sourceLines {table : OpcodeTable} (hrun : Run setup start history s)
    (hrereads : ∀ x ∈ history, x.2.Rereads table) (hsymbols : asm.symbols = s.labels)
    (hlisting : asm.listing = s.listing.toList) {line : Text} (hline : line ∈ asm.sourceLines) :
    Text.IsLine line := by
  rw [Assembly.sourceLines, List.mem_append, List.mem_map] at hline
  rcases hline with hline | ⟨row, hrow, rfl⟩
  · obtain ⟨address, -, rfl⟩ := Option.map_eq_some_iff.mp (Option.mem_toList.mp hline)
    refine (Line.settled_originText address).trimmed.isLine fun hfeed => ?_
    rcases List.mem_append.mp hfeed with hfeed | hfeed
    · exact absurd hfeed (by decide)
    · exact Numeral.notMem_decimal rfl hfeed
  · rcases mem_interleave hrow with ⟨x, hx, rfl⟩ | ⟨e, he, rfl⟩
    · exact (hrun.rereads_symbol hrereads hsymbols hx).1
    · rw [hlisting, hrun.listing_start] at he
      obtain ⟨m, hm, rfl⟩ := List.mem_map.mp he
      exact (rereads_emission hrereads hm).1

end Again

end Session

namespace InstructionSet

open Session in
/-- If no line defines a variable, the source of a listing assembles, with the default settings, to
the assembly that the listing is of, but for the numbers of the lines. -/
theorem assemble_source (settings : Settings) (text : Text)
    (hdollar : ∀ raw ∈ text.lines, (Text.trim (Line.stripComment raw)).head? ≠ some '$')
    (asm : Assembly) (h : assemble ⟨table, settings⟩ text = .ok asm) :
    ∃ again, assemble ⟨table, {}⟩ asm.source = .ok again ∧ again.code = asm.code ∧
      again.origin = asm.origin ∧ again.symbols = asm.symbols ∧
      again.listing.map Entry.unnumbered = asm.listing.map Entry.unnumbered := by
  rw [assemble, trace, run_eq_advance] at h
  obtain ⟨s, hs, hfinish⟩ := bind_eq_ok.mp h
  have hrun := run_of_advance hs
  obtain ⟨-, horigin, hsymbols, hlisting⟩ := finish_eq_ok hrun.filled_start hfinish
  have htable : (Setup.mk table settings).table.Unquoted := unquoted_table
  have hrereads : ∀ x ∈ start.steps ⟨table, settings⟩ text.lines, x.2.Rereads table := fun x hx =>
    rereads_of_mem_steps htable rfl
      (fun raw hraw => ⟨hdollar raw hraw, Text.feed_notMem_of_mem_lines hraw⟩) hx
  obtain ⟨after, hafter, hemitted, hlabels, horigin'⟩ :=
    hrun.advance_sourceLines ⟨table, {}⟩ hrereads hsymbols hlisting
  have hlines : asm.source.lines = asm.sourceLines := Text.lines_flatMap fun line hline =>
    hrun.isLine_sourceLines hrereads hsymbols hlisting hline
  -- an origin of the first settings is a line of the source now
  have heffective : after.effectiveOrigin ({} : Settings) = s.effectiveOrigin settings := by
    rw [← horigin, ← horigin', effectiveOrigin]
    exact Option.or_none
  refine ⟨{ asm with listing := after.listing.toList }, ?_, rfl, rfl, rfl, ?_⟩
  · rw [assemble, trace, hlines, run_eq_advance, hafter]
    exact finish_of_emitted hemitted hlabels hrun.filled_start heffective hfinish
  · rw [hlisting]
    exact congrArg Emitted.listing hemitted

/-- Blanks, capitals, a comment, a semicolon and a comma inside quotes, and text after `defm`. -/
def sampleText : Text := String.toList
  "ORG 4000h ; here\n:Again\n LD  A , \",\" ; there\n jr nz, : AGAIN\nDefm  \"Hi; you\n: End\n"

def sampleListed : Assembly where
  code := ⟨#[0x3E, 0x2C, 0x20, 0xFC, 0x22, 0x48, 0x69, 0x3B, 0x20, 0x79, 0x6F, 0x75]⟩
  origin := some 0x4000
  symbols := (Dictionary.empty.insert "again".toList 0).insert "end".toList 12
  listing := [⟨3, 0, 2, "ld a,\",\"".toList⟩, ⟨4, 2, 2, "jr nz,:again".toList⟩,
    ⟨5, 4, 8, "defm \"Hi; you".toList⟩]

theorem sampleListed_again :
    assemble ⟨table, {}⟩ sampleText = .ok sampleListed ∧
    sampleListed.source =
      "org 16384\n:again\nld a,\",\"\njr nz,:again\ndefm \"Hi; you\n:end\n".toList ∧
    ∃ again, assemble ⟨table, {}⟩ sampleListed.source = .ok again ∧ again.code = sampleListed.code ∧
      again.symbols = sampleListed.symbols := by
  have hdollar : ∀ raw ∈ sampleText.lines,
      (Text.trim (Line.stripComment raw)).head? ≠ some '$' := by
    decide +kernel
  have hassemble : assemble ⟨table, {}⟩ sampleText = .ok sampleListed := by decide +kernel
  have hordered : sampleListed.orderedSymbols = [⟨"again".toList, 0⟩, ⟨"end".toList, 12⟩] :=
    List.mergeSort_of_pairwise (by decide +kernel)
  have hsource : sampleListed.source =
      "org 16384\n:again\nld a,\",\"\njr nz,:again\ndefm \"Hi; you\n:end\n".toList := by
    rw [Assembly.source, Assembly.sourceLines, Assembly.rows, hordered]
    decide +kernel
  obtain ⟨again, hagain, hcode, -, hsymbols, -⟩ :=
    assemble_source {} sampleText hdollar sampleListed hassemble
  exact ⟨hassemble, hsource, again, hagain, hcode, hsymbols⟩

end InstructionSet

end Z80
