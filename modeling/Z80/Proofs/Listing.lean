import Z80.Proofs.Source

/-!
# Listings as merges

A listing shows the symbols and the entries of an assembly.  `Merged` says how its rows come about
one by one: a symbol comes next if the next entry stands at its position or behind, and an entry if
all symbols that are left stand behind it.  Each symbol then stands in front of the first entry that
is at its position or behind, whether the entries go by position or not, and there is only one way
to put the rows so.
-/

namespace Z80

/-! ## Rows -/

namespace Row

def symbol? : Row → Option Symbol
  | .label symbol => some symbol
  | .entry _ => none

def entry? : Row → Option Entry
  | .label _ => none
  | .entry e => some e

/-- The position that a row shows. -/
def position : Row → Nat
  | .label symbol => symbol.position
  | .entry e => e.position

end Row

theorem interleave_label {s : Symbol} {symbols : List Symbol} {entries : List Entry}
    (h : ∀ e ∈ entries.head?, s.position ≤ e.position) :
    interleave (s :: symbols) entries = .label s :: interleave symbols entries := by
  cases entries with
  | nil => rfl
  | cons e rest => simp [interleave, h e rfl]

theorem interleave_entry {e : Entry} {symbols : List Symbol} {entries : List Entry}
    (h : ∀ s ∈ symbols, e.position < s.position) :
    interleave symbols (e :: entries) = .entry e :: interleave symbols entries := by
  cases symbols with
  | nil => rfl
  | cons s symbols =>
    have hs : ¬ s.position ≤ e.position := Nat.not_le.mpr (h s List.mem_cons_self)
    simp [interleave, hs]

/-! ## Merging one by one -/

/-- How symbols and entries come to stand in rows. -/
inductive Merged : List Symbol → List Entry → List Row → Prop
  | done : Merged [] [] []
  | label {s : Symbol} {symbols : List Symbol} {entries : List Entry} {rows : List Row}
      (hnext : ∀ e ∈ entries.head?, s.position ≤ e.position) (hrest : Merged symbols entries rows) :
      Merged (s :: symbols) entries (.label s :: rows)
  | entry {e : Entry} {symbols : List Symbol} {entries : List Entry} {rows : List Row}
      (hleft : ∀ s ∈ symbols, e.position < s.position) (hrest : Merged symbols entries rows) :
      Merged symbols (e :: entries) (.entry e :: rows)

/-- Symbols that go by position are merged with any entries. -/
theorem merged_interleave {symbols : List Symbol}
    (hsorted : symbols.Pairwise fun s s' => s.position ≤ s'.position) (entries : List Entry) :
    Merged symbols entries (interleave symbols entries) := by
  induction entries generalizing symbols with
  | nil =>
    clear hsorted
    induction symbols with
    | nil => exact .done
    | cons s symbols ih => exact .label (fun e he => by cases he) ih
  | cons e entries ih =>
    induction symbols with
    | nil => exact .entry (List.forall_mem_nil _) (ih .nil)
    | cons s symbols ihSymbols =>
      obtain ⟨hfirst, hrest⟩ := List.pairwise_cons.mp hsorted
      by_cases hs : s.position ≤ e.position
      · have hnext : ∀ e' ∈ (e :: entries).head?, s.position ≤ e'.position := by
          rintro e' ⟨⟩
          exact hs
        rw [interleave_label hnext]
        exact .label hnext (ihSymbols hrest)
      · -- all symbols stand behind the entry
        have hleft : ∀ s' ∈ s :: symbols, e.position < s'.position := by
          intro s' hs'
          rcases List.mem_cons.mp hs' with rfl | hs'
          · omega
          · have hle := hfirst s' hs'
            omega
        rw [interleave_entry hleft]
        exact .entry hleft (ih hsorted)

namespace Merged

variable {symbols : List Symbol} {entries : List Entry} {rows : List Row}

theorem eq_interleave (h : Merged symbols entries rows) : rows = interleave symbols entries := by
  induction h with
  | done => rfl
  | label hnext _ ih => rw [interleave_label hnext, ih]
  | entry hleft _ ih => rw [interleave_entry hleft, ih]

theorem filterMap_entry? (h : Merged symbols entries rows) :
    rows.filterMap Row.entry? = entries := by
  induction h with
  | done => rfl
  | label _ _ ih => exact ih
  | entry _ _ ih => exact congrArg (_ :: ·) ih

theorem filterMap_symbol? (h : Merged symbols entries rows) :
    rows.filterMap Row.symbol? = symbols := by
  induction h with
  | done => rfl
  | label _ _ ih => exact congrArg (_ :: ·) ih
  | entry _ _ ih => exact ih

theorem mem_symbols (h : Merged symbols entries rows) {s : Symbol} (hs : .label s ∈ rows) :
    s ∈ symbols := by
  rw [← h.filterMap_symbol?]
  exact List.mem_filterMap.mpr ⟨_, hs, rfl⟩

theorem mem_entries (h : Merged symbols entries rows) {e : Entry} (he : .entry e ∈ rows) :
    e ∈ entries := by
  rw [← h.filterMap_entry?]
  exact List.mem_filterMap.mpr ⟨_, he, rfl⟩

/-- In front of a symbol are the entries up to the first that is at its position or behind. -/
theorem entries_before (h : Merged symbols entries rows) {before after : List Row} {s : Symbol}
    (hrows : rows = before ++ .label s :: after) :
    before.filterMap Row.entry? = entries.takeWhile (·.position < s.position) := by
  induction h generalizing before with
  | done => simp at hrows
  | @label s' symbols entries rows hnext _ ih =>
    cases before with
    | nil =>
      obtain ⟨⟨⟩, -⟩ := List.cons.inj hrows
      cases entries with
      | nil => rfl
      | cons e entries =>
        have hle := hnext e rfl
        simp [hle]
    | cons row before =>
      obtain ⟨rfl, htail⟩ := List.cons.inj hrows
      have hbefore := ih htail
      exact hbefore
  | @entry e symbols entries rows hleft hrest ih =>
    cases before with
    | nil => cases (List.cons.inj hrows).1
    | cons row before =>
      obtain ⟨rfl, htail⟩ := List.cons.inj hrows
      have hs : e.position < s.position := hleft s (hrest.mem_symbols (by simp [htail]))
      rw [List.takeWhile_cons_of_pos (by simpa using hs), ← ih htail]
      rfl

/-- If the entries go by position, so do the rows. -/
theorem pairwise_position (h : Merged symbols entries rows)
    (hsymbols : symbols.Pairwise fun s s' => s.position ≤ s'.position)
    (hentries : entries.Pairwise fun e e' => e.position ≤ e'.position) :
    rows.Pairwise fun row row' => row.position ≤ row'.position := by
  induction h with
  | done => exact .nil
  | @label s symbols entries rows hnext hrest ih =>
    obtain ⟨hfirst, hsymbols⟩ := List.pairwise_cons.mp hsymbols
    refine List.pairwise_cons.mpr ⟨fun row hrow => ?_, ih hsymbols hentries⟩
    cases row with
    | label s' => exact hfirst s' (hrest.mem_symbols hrow)
    | entry e =>
      have he := hrest.mem_entries hrow
      obtain ⟨e', entries, rfl⟩ := List.exists_cons_of_ne_nil (List.ne_nil_of_mem he)
      refine Nat.le_trans (hnext e' rfl) ?_
      rcases List.mem_cons.mp he with rfl | he
      · exact Nat.le_refl _
      · exact (List.pairwise_cons.mp hentries).1 e he
  | @entry e symbols entries rows hleft hrest ih =>
    obtain ⟨hfirst, hentries⟩ := List.pairwise_cons.mp hentries
    refine List.pairwise_cons.mpr ⟨fun row hrow => ?_, ih hsymbols hentries⟩
    cases row with
    | label s => exact Nat.le_of_lt (hleft s (hrest.mem_symbols hrow))
    | entry e' => exact hfirst e' (hrest.mem_entries hrow)

/-- Where each symbol stands in front of the right entries, the rows are merged. -/
theorem of_entries_before (rows : List Row)
    (h : ∀ before s after, rows = before ++ .label s :: after →
      before.filterMap Row.entry? =
        (rows.filterMap Row.entry?).takeWhile (·.position < s.position)) :
    Merged (rows.filterMap Row.symbol?) (rows.filterMap Row.entry?) rows := by
  induction rows with
  | nil => exact .done
  | cons row rows ih =>
    cases row with
    | label s =>
      have hfirst : [] = (rows.filterMap Row.entry?).takeWhile (·.position < s.position) :=
        h [] s rows rfl
      refine .label (fun e he => ?_) (ih fun before s' after hrows => ?_)
      · change (rows.filterMap Row.entry?).head? = some e at he
        obtain ⟨rest, hentries⟩ := List.head?_eq_some_iff.mp he
        rw [hentries, List.takeWhile_cons] at hfirst
        split at hfirst
        · cases hfirst
        · next hnot => simpa using hnot
      · exact h (.label s :: before) s' after (congrArg (_ :: ·) hrows)
    | entry e =>
      -- the entry stands in front of every symbol behind it, so it is one of those taken
      have hbefore : ∀ before s after, rows = before ++ .label s :: after →
          e.position < s.position ∧
          before.filterMap Row.entry? =
            (rows.filterMap Row.entry?).takeWhile (·.position < s.position) := by
        intro before s after hrows
        have htaken : e :: before.filterMap Row.entry? =
            (e :: rows.filterMap Row.entry?).takeWhile (·.position < s.position) :=
          h (.entry e :: before) s after (congrArg (_ :: ·) hrows)
        rw [List.takeWhile_cons] at htaken
        split at htaken
        · next hlt => exact ⟨by simpa using hlt, (List.cons.inj htaken).2⟩
        · cases htaken
      refine .entry (fun s hs => ?_) (ih fun before s after hrows =>
        (hbefore before s after hrows).2)
      change s ∈ rows.filterMap Row.symbol? at hs
      obtain ⟨row, hrow, hsymbol⟩ := List.mem_filterMap.mp hs
      obtain ⟨before, after, hrows⟩ := List.append_of_mem hrow
      cases row with
      | label s' =>
        cases hsymbol
        exact (hbefore before s after hrows).1
      | entry _ => cases hsymbol

end Merged

/-! ## Listings -/

namespace Symbol

/-- Symbols go by position, and at one position by name. -/
def Before (s s' : Symbol) : Prop :=
  s.position < s'.position ∨ s.position = s'.position ∧ s.name < s'.name

instance (s s' : Symbol) : Decidable (s.Before s') := inferInstanceAs (Decidable (_ ∨ _))

theorem Before.asymm {s s' : Symbol} (h : s.Before s') (h' : s'.Before s) : False := by
  rcases h with h | ⟨h, hname⟩ <;> rcases h' with h' | ⟨h', hname'⟩
  · omega
  · omega
  · omega
  · exact List.lt_irrefl _ (List.lt_trans hname hname')

end Symbol

namespace Assembly

variable (asm : Assembly)

/-- Rows that an assembly is listed as: the entries in their order, and each symbol once, by
position and name, in front of the first entry that is at its position or behind. -/
structure ListedAs (rows : List Row) : Prop where
  entries : rows.filterMap Row.entry? = asm.listing
  symbols : (rows.filterMap Row.symbol?).Perm (asm.symbols.entries.map fun e => ⟨e.1, e.2⟩)
  sorted : (rows.filterMap Row.symbol?).Pairwise Symbol.Before
  before : ∀ before s after, rows = before ++ .label s :: after →
    before.filterMap Row.entry? = asm.listing.takeWhile (·.position < s.position)

theorem before_orderedSymbols : asm.orderedSymbols.Pairwise Symbol.Before := by
  have hsorted := List.pairwise_mergeSort Symbol.precedes_trans Symbol.precedes_total
    (asm.symbols.entries.map fun e => (⟨e.1, e.2⟩ : Symbol))
  refine (hsorted.and asm.distinct_orderedSymbols).imp ?_
  rintro s s' ⟨hprecedes, hne⟩
  rw [Symbol.precedes_iff] at hprecedes
  exact hprecedes.imp_right fun ⟨hposition, hname⟩ =>
    ⟨hposition, Text.lt_of_not_lt hname hne.symm⟩

theorem eq_orderedSymbols {symbols : List Symbol}
    (hperm : symbols.Perm (asm.symbols.entries.map fun e => ⟨e.1, e.2⟩))
    (hsorted : symbols.Pairwise Symbol.Before) : symbols = asm.orderedSymbols := by
  refine (hperm.trans (List.mergeSort_perm _ _).symm).eq_of_pairwise ?_ hsorted
    asm.before_orderedSymbols
  exact fun s s' _ _ hbefore hbefore' => (hbefore.asymm hbefore').elim

theorem merged_rows : Merged asm.orderedSymbols asm.listing asm.rows :=
  merged_interleave asm.sorted_orderedSymbols asm.listing

theorem listedAs_rows : asm.ListedAs asm.rows where
  entries := asm.merged_rows.filterMap_entry?
  symbols := by
    rw [asm.merged_rows.filterMap_symbol?]
    exact List.mergeSort_perm _ _
  sorted := by
    rw [asm.merged_rows.filterMap_symbol?]
    exact asm.before_orderedSymbols
  before _ _ _ hrows := asm.merged_rows.entries_before hrows

/-- There is only one way to list an assembly. -/
theorem ListedAs.eq_rows {asm : Assembly} {rows : List Row} (h : asm.ListedAs rows) :
    rows = asm.rows := by
  have hmerged := Merged.of_entries_before rows fun before s after hrows => by
    rw [h.entries, h.before before s after hrows]
  rw [hmerged.eq_interleave, h.entries, asm.eq_orderedSymbols h.symbols h.sorted, Assembly.rows]

end Assembly

/-- The entries of an assembly that a session ends in go by position. -/
theorem Session.pairwise_position_listing {setup : Setup} {lines : List Text} {asm : Assembly}
    (hfinish : ((start.replay setup lines).1.finish setup).2 = .ok asm) :
    asm.listing.Pairwise fun e e' => e.position ≤ e'.position := by
  have hrun := run_replay setup start lines
  obtain ⟨-, -, -, hlisting⟩ := finish_eq_ok hrun.filled_start hfinish
  rw [hlisting, hrun.listing_start]
  refine hrun.tiles_start.pairwise.map Emission.entry fun m m' hstop => ?_
  exact Nat.le_trans (Nat.le_add_right m.position m.size) hstop

namespace Assembly

/-- The text of a listing has a line for each row, and the rows are those the assembly is listed as,
the only ones: each entry once and in order, with its address, bytes and text, and each symbol once
with its address, by position and name, in front of the first entry at its position or behind.  This
holds for any symbols and entries.  In an assembly that a session ends in, the rows go by
position. -/
theorem listing_is_merge (asm : Assembly) :
    ∃ rows : List Row,
      asm.listingText = (rows.flatMap fun row =>
        (match row with
          | .entry e => asm.entryLine e
          | .label s =>
            Numeral.hex 4 (asm.addressOf s.position).toNat ++ "  <".toList ++ s.name ++
              ">:".toList) ++
        ['\n']) ∧
      asm.ListedAs rows ∧ (∀ rows', asm.ListedAs rows' → rows' = rows) ∧
      ∀ setup lines, ((Session.start.replay setup lines).1.finish setup).2 = .ok asm →
        rows.Pairwise fun row row' => row.position ≤ row'.position := by
  refine ⟨asm.rows, ?_, asm.listedAs_rows, fun rows' h => h.eq_rows, fun setup lines hfinish => ?_⟩
  · rw [listingText]
    congr 1
    funext row
    cases row <;> rfl
  · exact asm.merged_rows.pairwise_position asm.sorted_orderedSymbols
      (Session.pairwise_position_listing hfinish)

/-- An assembly with entries in no order, one of them outside the code, and two labels at one
position. -/
def scatteredAssembly : Assembly where
  code := .ofList [0x3e, 0x10, 0xc9, 0x76]
  origin := some 0x8000
  symbols :=
    (((Dictionary.empty.insert "low".toList 0).insert "two".toList 4).insert "end".toList 9).insert
      "mid".toList 4
  listing := [⟨3, 2, 1, "ret".toList⟩, ⟨1, 0, 2, "ld a,10h".toList⟩, ⟨7, 7, 1, "nop".toList⟩]

theorem scatteredAssembly_listed :
    scatteredAssembly.listingText =
      ("8000  <low>:\n8002  c9           ret\n8000  3e 10        ld a,10h\n8004  <mid>:\n" ++
        "8004  <two>:\n8007               nop\n8009  <end>:\n").toList ∧
    (∃ rows, scatteredAssembly.ListedAs rows ∧ rows.map Row.position = [0, 2, 0, 4, 4, 7, 9]) ∧
    ((Session.start.replay Session.sampleSetup Session.sampleLines).1.finish
      Session.sampleSetup).2 = .ok Session.sampleAssembly ∧
    ∃ rows, Session.sampleAssembly.ListedAs rows ∧
      rows.Pairwise fun row row' => row.position ≤ row'.position := by
  have hsymbols : [⟨"low".toList, 0⟩, ⟨"mid".toList, 4⟩, ⟨"two".toList, 4⟩, ⟨"end".toList, 9⟩] =
      scatteredAssembly.orderedSymbols :=
    eq_orderedSymbols _ (by decide) (by decide)
  have htext : scatteredAssembly.listingText =
      ("8000  <low>:\n8002  c9           ret\n8000  3e 10        ld a,10h\n8004  <mid>:\n" ++
        "8004  <two>:\n8007               nop\n8009  <end>:\n").toList := by
    rw [listingText, Assembly.rows, ← hsymbols]
    decide +kernel
  have hpositions : scatteredAssembly.rows.map Row.position = [0, 2, 0, 4, 4, 7, 9] := by
    rw [Assembly.rows, ← hsymbols]
    decide
  have hfinish : ((Session.start.replay Session.sampleSetup Session.sampleLines).1.finish
      Session.sampleSetup).2 = .ok Session.sampleAssembly := by
    decide +kernel
  obtain ⟨rows, -, hlisted, -, -⟩ := listing_is_merge scatteredAssembly
  obtain ⟨rows', -, hlisted', -, hsorted⟩ := listing_is_merge Session.sampleAssembly
  refine ⟨htext, ⟨rows, hlisted, ?_⟩, hfinish, rows', hlisted', hsorted _ _ hfinish⟩
  rw [hlisted.eq_rows, hpositions]

end Assembly

end Z80
