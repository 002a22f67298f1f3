import Z80.Proofs.Line
import Z80.Proofs.LineByLine

/-!
# Layout

A source may be laid out in many ways: with blank lines, with blanks around a line, with comments
behind it.  What is read of a line is what is left without its comment and the blanks at its ends,
so a line may be dressed up without change.  A line that leaves nothing only counts as a line, so
the lines behind it get other numbers and a run goes on as before (`advance_renumber`).  After any
such edits a source has the same result, with the numbers of its lines where they went.
-/

namespace Z80

open Text (trim isBlank outside Piece)
open Session (sampleSetup)

/-! ## Lines with other dress -/

namespace Line

/-- A line that says nothing: blanks, and maybe a comment behind them. -/
inductive Silent : Text → Prop
  | blank {front : Text} (hfront : ∀ c ∈ front, isBlank c = true) : Silent front
  | comment {front : Text} (hfront : ∀ c ∈ front, isBlank c = true) (text : Text) :
      Silent (front ++ ';' :: text)

/-- A line with other blanks at its ends, or with a comment behind it.  A comment may start where
the number of quotes in front is even, or behind another comment. -/
inductive Dressed : Text → Text → Prop
  | blanks {front back front' back' : Text} (core : Text) (hfront : ∀ c ∈ front, isBlank c = true)
      (hback : ∀ c ∈ back, isBlank c = true) (hfront' : ∀ c ∈ front', isBlank c = true)
      (hback' : ∀ c ∈ back', isBlank c = true) :
      Dressed (front ++ (core ++ back)) (front' ++ (core ++ back'))
  | comment {line : Text} (text : Text)
      (h : line.count '"' % 2 = 0 ∨
        ∃ before after, line = before ++ ';' :: after ∧ before.count '"' % 2 = 0) :
      Dressed line (line ++ ';' :: text)

/-- Blanks around a line do not count, whether its comment or its quotes are open at its end or
not. -/
theorem trim_stripComment_append {front back : Text} (hfront : ∀ c ∈ front, isBlank c = true)
    (hback : ∀ c ∈ back, isBlank c = true) (core : Text) :
    trim (stripComment (front ++ (core ++ back))) = trim (stripComment core) := by
  have hpiece : Piece ';' front :=
    ⟨fun hmem => Text.notMem_of_blank hfront rfl (Text.outside_subset _ _ hmem),
      Text.quotedAfter_of_notMem _ (Text.quote_notMem_of_blank hfront)⟩
  rw [stripComment, Text.beforeOutside_append (by decide) hpiece, stripComment]
  by_cases hcomment : ';' ∈ outside false core
  · rw [Text.beforeOutside_append_of_mem hcomment]
    have htrim :=
      Text.trim_append_of_blank hfront (List.forall_mem_nil _) (Text.beforeOutside ';' core)
    rwa [List.append_nil] at htrim
  · have hnone : ';' ∉ outside false (core ++ back) := by
      rw [Text.outside_append, List.mem_append, not_or]
      exact ⟨hcomment, fun hmem => Text.notMem_of_blank hback rfl (Text.outside_subset _ _ hmem)⟩
    rw [Text.beforeOutside_eq_self (by decide) hnone,
      Text.beforeOutside_eq_self (by decide) hcomment, Text.trim_append_of_blank hfront hback]

theorem stripComment_append_comment {line : Text}
    (h : line.count '"' % 2 = 0 ∨
      ∃ before after, line = before ++ ';' :: after ∧ before.count '"' % 2 = 0) (text : Text) :
    stripComment (line ++ ';' :: text) = stripComment line := by
  rw [← Text.mem_outside_iff_count (by decide)] at h
  by_cases hcomment : ';' ∈ outside false line
  · exact Text.beforeOutside_append_of_mem hcomment _
  · have hpiece : Piece ';' line :=
      ⟨hcomment, Text.quotedAfter_false_iff.mpr (h.resolve_right hcomment)⟩
    rw [stripComment, stripComment, Text.beforeOutside_append (by decide) hpiece,
      Text.beforeOutside_eq_self (by decide) hcomment]
    exact List.append_nil line

theorem Silent.read {line : Text} (h : Silent line) (vars : Variables) :
    Line.read vars line = .ok .blank := by
  have hnothing : ∀ {front core : Text}, (∀ c ∈ front, isBlank c = true) → stripComment core = [] →
      Line.read vars (front ++ core) = .ok .blank := by
    intro front core hfront hcore
    have htrim := trim_stripComment_append hfront (List.forall_mem_nil _) core
    rw [List.append_nil, hcore] at htrim
    rw [Line.read, htrim]
    rfl
  cases h with
  | blank hfront => exact List.append_nil line ▸ hnothing hfront rfl
  | comment hfront text => exact hnothing hfront rfl

theorem Dressed.alike {line line' : Text} (h : Dressed line line') : Alike line line' := by
  have hleft : trim (stripComment line') = trim (stripComment line) := by
    cases h with
    | blanks core hfront hback hfront' hback' =>
      rw [trim_stripComment_append hfront hback, trim_stripComment_append hfront' hback']
    | comment text hopen => rw [stripComment_append_comment hopen]
  intro vars
  rw [Line.read, Line.read, hleft]

end Line

/-! ## Lines with other numbers -/

def Entry.renumber (number : Nat → Nat) (e : Entry) : Entry := { e with line := number e.line }

def Assembly.renumber (number : Nat → Nat) (asm : Assembly) : Assembly :=
  { asm with listing := asm.listing.map (Entry.renumber number) }

/-- The end of a session stands in no line. -/
def Failure.renumber (number : Nat → Nat) : Failure → Failure
  | line n fault => .line (number n) fault
  | resolution fault => .resolution fault

/-- A result with other numbers for the lines that it names. -/
def renumbered (number : Nat → Nat) (result : Except Failure Assembly) : Except Failure Assembly :=
  (result.map (Assembly.renumber number)).mapError (Failure.renumber number)

@[simp]
theorem renumbered_id (result : Except Failure Assembly) : renumbered id result = result := by
  cases result with
  | error failure => cases failure <;> rfl
  | ok asm =>
    refine congrArg (fun listing => Except.ok (Assembly.mk _ _ _ listing)) ?_
    exact List.map_id asm.listing

@[simp]
theorem renumbered_renumbered (number number' : Nat → Nat) (result : Except Failure Assembly) :
    renumbered number' (renumbered number result) = renumbered (number' ∘ number) result := by
  cases result with
  | error failure => cases failure <;> rfl
  | ok asm =>
    refine congrArg (fun listing => Except.ok (Assembly.mk _ _ _ listing)) ?_
    exact List.map_map

namespace Session

variable {s : Session} {number : Nat → Nat} {k : Nat}

/-- The session with other numbers for its lines, of which `k` are counted. -/
def renumber (number : Nat → Nat) (k : Nat) (s : Session) : Session :=
  { s with listing := s.listing.map (Entry.renumber number), lines := k }

@[simp] theorem interpret_renumber (setup : Setup) (s : Session) (number : Nat → Nat) (k : Nat)
    (raw : Text) :
    (s.renumber number k).interpret setup raw = s.interpret setup raw :=
  interpret_congr rfl fun _ => rfl

theorem apply_renumber (h : number s.lines = k) (step : Step) :
    (s.renumber number k).apply step = (s.apply step).renumber number k := by
  cases step with
  | emit statement encoding =>
    have hentry :
        Entry.renumber number ⟨s.lines, s.position, encoding.bytes.length, statement.text⟩ =
          ⟨k, s.position, encoding.bytes.length, statement.text⟩ := by
      rw [Entry.renumber, h]
    rw [apply, apply, renumber, renumber]
    dsimp only
    rw [Array.map_push, hentry]
    rfl
  | _ => rfl

/-- A run goes on as before if the numbers of its lines go on one by one. -/
theorem advance_renumber (setup : Setup) (s : Session) (number : Nat → Nat) (k : Nat)
    (lines : List Text) (h : ∀ i < lines.length, number (s.lines + i + 1) = k + i + 1) :
    (s.renumber number k).advance setup lines =
      ((s.advance setup lines).map (·.renumber number (k + lines.length))).mapError
        (Failure.renumber number) := by
  induction lines generalizing s k with
  | nil => rfl
  | cons raw rest ih =>
    have hfirst : number (s.lines + 1) = k + 1 := h 0 (Nat.succ_pos _)
    rw [advance, advance, interpret_renumber]
    cases s.interpret setup raw with
    | error fault => exact congrArg (fun n => Except.error (Failure.line n fault)) hfirst.symm
    | ok step =>
      have hrest : ∀ i < rest.length,
          number ((s.count.apply step).lines + i + 1) = k + 1 + i + 1 := by
        intro i hi
        rw [lines_apply, lines_count, Nat.add_right_comm s.lines 1 i, Nat.add_right_comm k 1 i]
        exact h (i + 1) (Nat.succ_lt_succ hi)
      change ((s.count.renumber number (k + 1)).apply step).advance setup rest = _
      rw [apply_renumber hfirst, ih _ _ hrest, List.length_cons, Nat.add_right_comm k 1,
        Nat.add_assoc k]

@[simp] theorem finish_renumber (setup : Setup) (s : Session) (number : Nat → Nat) (k : Nat) :
    ((s.renumber number k).finish setup).2 = renumbered number (s.finish setup).2 := by
  rw [finish, finish]
  dsimp only [renumber, effectiveOrigin]
  cases (s.references.resolve s.labels (s.origin.or setup.settings.origin) s.code).outcome with
  | error fault => rfl
  | ok patched =>
    refine congrArg (fun listing => Except.ok (Assembly.mk _ _ _ listing)) ?_
    exact Array.toList_map

end Session

/-! ## Edits -/

/-- Where a line goes if another is put in behind the first `place` lines. -/
def skipping (place n : Nat) : Nat := if n ≤ place then n else n + 1

/-- One edit of the lines of a source, with the number that each line has afterwards. -/
inductive Edit : List Text → List Text → (Nat → Nat) → Prop
  | insert (front back : List Text) {line : Text} (hline : Line.Silent line) :
      Edit (front ++ back) (front ++ line :: back) (skipping front.length)
  | dress (front back : List Text) {line line' : Text} (hline : Line.Dressed line line') :
      Edit (front ++ line :: back) (front ++ line' :: back) id

/-- Any number of edits, one after the other. -/
inductive Edits : List Text → List Text → (Nat → Nat) → Prop
  | none (lines : List Text) : Edits lines lines id
  | more {lines lines' lines'' : List Text} {number number' : Nat → Nat}
      (earlier : Edits lines lines' number) (last : Edit lines' lines'' number') :
      Edits lines lines'' (number' ∘ number)

namespace Session

variable {setup : Setup}

theorem advance_cons_of_silent {line : Text} (h : Line.Silent line) (s : Session)
    (rest : List Text) :
    s.advance setup (line :: rest) = s.count.advance setup rest := by
  rw [advance, interpret_eq_ok.mpr (.nothing (h.read s.bindings))]
  rfl

@[simp] theorem renumber_start (number : Nat → Nat) : start.renumber number 0 = start :=
  congrArg (fun listing => { start with listing := listing }) Array.map_empty

/-- A line that says nothing moves the lines behind it, and nothing else. -/
theorem run_insert (front back : List Text) {line : Text} (hline : Line.Silent line) :
    (start.run setup (front ++ line :: back)).2 =
      renumbered (skipping front.length) (start.run setup (front ++ back)).2 := by
  rw [run_eq_advance, run_eq_advance, advance_append, advance_append]
  -- the lines in front keep their numbers, so that they may be renumbered too
  have hfront := advance_renumber setup start (skipping front.length) 0 front fun i hi => by
    refine if_pos ?_
    change 0 + i + 1 ≤ front.length
    omega
  rw [renumber_start] at hfront
  cases hmiddle : start.advance setup front with
  | error failure =>
    rw [hmiddle] at hfront
    exact congrArg Except.error (Except.error.inj hfront)
  | ok middle =>
    rw [hmiddle] at hfront
    have hsame : middle = middle.renumber (skipping front.length) (0 + front.length) :=
      Except.ok.inj hfront
    have hlines : middle.lines = 0 + front.length := congrArg Session.lines hsame
    have hcount : middle.count = middle.renumber (skipping front.length) (0 + front.length + 1) :=
      congrArg count hsame
    have hback := advance_renumber setup middle (skipping front.length) (0 + front.length + 1) back
      fun i _ => by
        rw [hlines, skipping, if_neg (by omega)]
        omega
    change (middle.advance setup (line :: back) >>= fun after => (after.finish setup).2) =
      renumbered _ (middle.advance setup back >>= fun after => (after.finish setup).2)
    rw [advance_cons_of_silent hline, hcount, hback]
    cases middle.advance setup back with
    | error failure => rfl
    | ok after => exact finish_renumber setup after _ _

theorem run_dress (front back : List Text) {line line' : Text} (hline : Line.Dressed line line') :
    start.run setup (front ++ line' :: back) = start.run setup (front ++ line :: back) := by
  have hrefl : ∀ lines : List Text, List.Forall₂ Line.Alike lines lines := fun lines =>
    List.forall₂_same.mpr fun raw _ vars => rfl
  exact run_of_alike (List.rel_append (hrefl front) (.cons hline.alike (hrefl back))) start

theorem run_of_edit {lines lines' : List Text} {number : Nat → Nat} (h : Edit lines lines' number) :
    (start.run setup lines').2 = renumbered number (start.run setup lines).2 := by
  cases h with
  | insert front back hline => exact run_insert front back hline
  | dress front back hline => rw [run_dress front back hline, renumbered_id]

theorem run_of_edits {lines lines' : List Text} {number : Nat → Nat}
    (h : Edits lines lines' number) :
    (start.run setup lines').2 = renumbered number (start.run setup lines).2 := by
  induction h with
  | none => rw [renumbered_id]
  | more _ last ih => rw [run_of_edit last, ih, renumbered_renumbered]

end Session

/-- Edits of the layout do not change the result of a source: the code, the origin, the symbols and
the listing are the same, or the fault is; only the numbers of lines are those of the new places. -/
theorem assemble_of_edits (setup : Setup) (source source' : Text) (number : Nat → Nat)
    (h : Edits source.lines source'.lines number) :
    assemble setup source' = renumbered number (assemble setup source) :=
  Session.run_of_edits h

def bare : Text := "$n 5\n:top\nld a,$n\njr :top".toList

def adorned : Text := "\t; \"count\n$n 5; five: \"$n\n\n:top\n  ld a,$n\t\njr :top".toList

/-- Lines are put in at the start and behind a definition, the definition gets a comment that holds
a quote, a colon and a dollar sign, and a statement gets blanks on both sides. -/
theorem adorned_assembles :
    Edits bare.lines adorned.lines (skipping 2 ∘ skipping 0) ∧
    assemble sampleSetup adorned =
      renumbered (skipping 2 ∘ skipping 0) (assemble sampleSetup bare) ∧
    (assemble sampleSetup bare).map (·.listing.map (·.line)) = .ok [3, 4] ∧
    (assemble sampleSetup adorned).map (·.listing.map (·.line)) = .ok [5, 6] := by
  have hbare : bare.lines = ["$n 5".toList, ":top".toList, "ld a,$n".toList, "jr :top".toList] := by
    decide +kernel
  have hadorned : adorned.lines = ["\t; \"count".toList, "$n 5; five: \"$n".toList, [],
      ":top".toList, "  ld a,$n\t".toList, "jr :top".toList] := by
    decide +kernel
  have hedits : Edits bare.lines adorned.lines (skipping 2 ∘ skipping 0) := by
    rw [hbare, hadorned]
    have hstart : Edit ["$n 5".toList, ":top".toList, "ld a,$n".toList, "jr :top".toList]
        ["\t; \"count".toList, "$n 5".toList, ":top".toList, "ld a,$n".toList, "jr :top".toList]
        (skipping 0) :=
      .insert [] _ (.comment (List.forall_mem_singleton.mpr rfl) " \"count".toList)
    have hcomment :=
      Edit.dress ["\t; \"count".toList] [":top".toList, "ld a,$n".toList, "jr :top".toList]
        (Line.Dressed.comment " five: \"$n".toList
          (.inl (by decide : "$n 5".toList.count '"' % 2 = 0)))
    have hempty := Edit.insert ["\t; \"count".toList, "$n 5; five: \"$n".toList]
      [":top".toList, "ld a,$n".toList, "jr :top".toList] (.blank (List.forall_mem_nil _))
    have hdressed : Line.Dressed ([] ++ ("ld a,$n".toList ++ []))
        ([' ', ' '] ++ ("ld a,$n".toList ++ ['\t'])) :=
      .blanks _ (List.forall_mem_nil _) (List.forall_mem_nil _)
        (List.forall_mem_cons.mpr ⟨rfl, List.forall_mem_singleton.mpr rfl⟩)
        (List.forall_mem_singleton.mpr rfl)
    have hblanks := Edit.dress ["\t; \"count".toList, "$n 5; five: \"$n".toList, [], ":top".toList]
      ["jr :top".toList] hdressed
    have hall := Edits.more (.more (.more (.more (.none _) hstart) hcomment) hempty) hblanks
    exact hall
  have hresult := assemble_of_edits sampleSetup bare adorned _ hedits
  refine ⟨hedits, hresult, by decide +kernel, ?_⟩
  rw [hresult]
  decide +kernel

end Z80
