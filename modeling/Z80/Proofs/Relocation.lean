import Z80.Proofs.LineByLine
import Z80.Proofs.Pending

/-!
# Relocation

Lines that only emit code may stand in front of others.  What follows them is the same session,
moved: positions grow by the size of the code in front and numbers of lines by the number of lines
in front.  If the origin is that much lower, every label has the address and every distance has the
length that it had before, so the code that follows does not change, and neither does the reason for
which it may fail.
-/

namespace Z80

/-! ## Dictionaries with other values -/

namespace Dictionary

variable {α β : Type}

/-- The same keys, with other values. -/
def mapValues (f : α → β) (d : Dictionary α) : Dictionary β :=
  ⟨d.entries.map fun e => (e.1, f e.2), List.pairwise_map.mpr d.sorted⟩

@[simp] theorem get?_mapValues (f : α → β) (d : Dictionary α) (key : Text) :
    (d.mapValues f).get? key = (d.get? key).map f := by
  change (d.entries.map fun e => (e.1, f e.2)).lookup key = (d.entries.lookup key).map f
  induction d.entries with
  | nil => rfl
  | cons e rest ih =>
    rw [List.map_cons, lookup_cons_eq_ite, lookup_cons_eq_ite, ih]
    split <;> rfl

@[simp] theorem mapValues_insert (f : α → β) (d : Dictionary α) (key : Text) (value : α) :
    (d.insert key value).mapValues f = (d.mapValues f).insert key (f value) := by
  apply Dictionary.ext
  change (insertEntry key value d.entries).map (fun e => (e.1, f e.2)) =
    insertEntry key (f value) (d.entries.map fun e => (e.1, f e.2))
  induction d.entries with
  | nil => rfl
  | cons e rest ih =>
    rw [List.map_cons, insertEntry, insertEntry]
    split
    · rfl
    · split
      · rfl
      · rw [List.map_cons, ih]

end Dictionary

/-! ## Code behind other code -/

namespace CodeBuffer

/-- A patch does not touch the code in front. -/
theorem patch_emit (front : CodeBuffer) {code : CodeBuffer} {position : Nat} {bytes : List UInt8}
    (h : position + bytes.length ≤ code.size) :
    (front.emit code.toList).patch (position + front.size) bytes =
      (code.patch position bytes).map fun after => front.emit after.toList := by
  have hmoved : position + front.size + bytes.length ≤ (front.emit code.toList).size := by
    rw [size_emit, length_toList]
    omega
  cases hpatch : code.patch position bytes with
  | error fault =>
    rw [patch_eq_ok h] at hpatch
    cases hpatch
  | ok after =>
    cases hpatch' : (front.emit code.toList).patch (position + front.size) bytes with
    | error fault =>
      rw [patch_eq_ok hmoved] at hpatch'
      cases hpatch'
    | ok after' =>
      refine congrArg Except.ok (toList_injective (List.ext_getElem? fun i => ?_))
      rw [getElem?_patch hpatch', toList_emit, toList_emit, List.getElem?_append,
        List.getElem?_append, length_toList]
      by_cases hi : i < front.size
      · rw [if_neg (by omega), if_pos hi, if_pos hi]
      · rw [if_neg hi, if_neg hi, getElem?_patch hpatch]
        by_cases hin : position ≤ i - front.size ∧ i - front.size < position + bytes.length
        · have hsub : i - (position + front.size) = i - front.size - position := by omega
          rw [if_pos hin, if_pos (by omega), hsub]
        · rw [if_neg hin, if_neg (by omega)]

end CodeBuffer

/-! ## Requests further back -/

/-- The request of a statement that stands further back. -/
def Request.shift (bytes : Nat) (r : Request) : Request := { r with site := r.site + bytes }

/-- The references of statements that stand further back. -/
def References.shift (bytes : Nat) (refs : References) : References where
  absolute := refs.absolute.mapValues (·.map (· + bytes))
  relative := refs.relative.mapValues (·.map (· + bytes))

namespace References

@[simp] theorem group?_shift (bytes : Nat) (refs : References) (reference : Reference) :
    (refs.shift bytes).group? reference = (refs.group? reference).map (·.map (· + bytes)) := by
  obtain ⟨label, jump⟩ := reference
  cases jump with
  | absolute => exact Dictionary.get?_mapValues _ _ _
  | relative => exact Dictionary.get?_mapValues _ _ _

theorem Filled.shift {refs : References} (h : refs.Filled) (bytes : Nat) :
    (refs.shift bytes).Filled := by
  intro reference hnil
  rw [group?_shift, Option.map_eq_some_iff] at hnil
  obtain ⟨sites, hsites, hmap⟩ := hnil
  rw [List.map_eq_nil_iff] at hmap
  exact h reference (hmap ▸ hsites)

theorem addSite_shift (bytes : Nat) (sites : Dictionary (List Nat)) (label : Text) (site : Nat) :
    (addSite sites label site).mapValues (·.map (· + bytes)) =
      addSite (sites.mapValues (·.map (· + bytes))) label (site + bytes) := by
  rw [addSite, addSite, Dictionary.mapValues_insert, Dictionary.get?_mapValues, List.map_append]
  congr 2
  cases sites.get? label <;> rfl

@[simp]
theorem record_shift (bytes : Nat) (refs : References) (site : Nat) (reference : Reference) :
    (refs.record site reference).shift bytes =
      (refs.shift bytes).record (site + bytes) reference := by
  obtain ⟨label, jump⟩ := reference
  cases jump with
  | absolute => exact congrArg (References.mk · _) (addSite_shift bytes refs.absolute label site)
  | relative => exact congrArg (References.mk _) (addSite_shift bytes refs.relative label site)

@[simp] theorem requests_shift (bytes : Nat) (refs : References) :
    (refs.shift bytes).requests = refs.requests.map (Request.shift bytes) := by
  have hgroups : (refs.shift bytes).toList =
      refs.toList.map fun g => (g.1, g.2.map (· + bytes)) := by
    simp only [toList, shift, Dictionary.mapValues, List.map_append, List.map_map]
    rfl
  rw [requests, requests, hgroups, requestsOf, requestsOf, List.flatMap_map, List.map_flatMap]
  refine congrArg (refs.toList.flatMap ·) (funext fun g => ?_)
  rw [List.map_map, List.map_map]
  rfl

end References

namespace Target

variable {labels : Labels} {low high : Address} {bytes : Nat}

/-- A label further back has its address from an origin that is as much lower. -/
theorem ofAddress_shift (horigin : low.toNat + bytes = high.toNat) (label : Text) :
    ofAddress (labels.mapValues (· + bytes)) (some low) label =
      ofAddress labels (some high) label := by
  simp only [ofAddress, Dictionary.get?_mapValues]
  cases labels.get? label with
  | none => rfl
  | some place =>
    have haddress : (low.toNat : Int) + ((place + bytes : Nat) : Int) = high.toNat + place := by
      omega
    exact congrArg (fun n => ofValue (signed64 n)) haddress

/-- A label and a jump that both stand further back have their distance. -/
@[simp] theorem operand_position_shift (label : Text) (site place bytes : Nat) :
    operand label (site + bytes) (.position (place + bytes)) =
      operand label site (.position place) := by
  have hdistance : ((place + bytes : Nat) : Int) - (((site + bytes : Nat) : Int) + 2) =
      place - (site + 2) := by
    omega
  rw [operand, operand, hdistance]

end Target

namespace Request

variable {labels : Labels} {low high : Address}

/-- A lower origin and labels further back give a request the same bytes. -/
theorem operand_shift {bytes : Nat} (horigin : low.toNat + bytes = high.toNat) (r : Request) :
    (r.shift bytes).operand (labels.mapValues (· + bytes)) (some low) =
      r.operand labels (some high) := by
  obtain ⟨⟨label, jump⟩, site⟩ := r
  rw [operand, operand, shift]
  cases jump with
  | absolute =>
    rw [Target.ofLabel, Target.ofLabel, Target.ofAddress_shift horigin]
    cases htarget : Target.ofAddress labels (some high) label with
    | error fault => rw [error_bind, error_bind]
    | ok target =>
      -- the bytes of an address do not depend on the site
      obtain ⟨_, _, -, -, hvalue⟩ := Target.ofAddress_eq_ok htarget
      obtain ⟨a, -, rfl⟩ := Target.ofValue_eq_ok hvalue
      rfl
  | relative =>
    simp only [Target.ofLabel, Target.ofPosition, Dictionary.get?_mapValues]
    cases labels.get? label with
    | none => rw [Option.map_none, error_bind, error_bind]
    | some place => exact Target.operand_position_shift label site place bytes

/-- Requests behind other code write what they write without it. -/
theorem writeAll_shift (labels : Labels) (front : CodeBuffer)
    (horigin : low.toNat + front.size = high.toNat)
    {code : CodeBuffer} {requests : List Request}
    (hin : ∀ r ∈ requests, r.site + 1 + r.size ≤ code.size) :
    writeAll (labels.mapValues (· + front.size)) (some low) (front.emit code.toList)
        (requests.map (shift front.size)) =
      (writeAll labels (some high) code requests).map fun after => front.emit after.toList := by
  induction requests generalizing code with
  | nil => rfl
  | cons r rest ih =>
    rw [List.map_cons, writeAll, writeAll, List.foldlM_cons, List.foldlM_cons, write, write,
      operand_shift horigin]
    cases hbytes : r.operand labels (some high) with
    | error fault => rfl
    | ok bytes =>
      have hle : r.site + 1 + bytes.length ≤ code.size := by
        rw [length_operand hbytes]
        exact hin r List.mem_cons_self
      have hpatch := CodeBuffer.patch_eq_ok hle
      have hmoved := CodeBuffer.patch_emit front hle
      have hsite : (r.shift front.size).site + 1 = r.site + 1 + front.size := by
        change r.site + front.size + 1 = r.site + 1 + front.size
        omega
      -- both patches succeed, and the rest is written behind the same code in front
      rw [hpatch] at hmoved
      change ((front.emit code.toList).patch ((r.shift front.size).site + 1) bytes >>= _) =
        Except.map _ (code.patch (r.site + 1) bytes >>= _)
      rw [hsite, hmoved, hpatch]
      refine ih fun r' hr' => ?_
      rw [CodeBuffer.size_patch hpatch]
      exact hin r' (List.mem_cons_of_mem _ hr')

end Request

/-! ## Sessions further back -/

/-- An entry that stands further back. -/
def Entry.shift (lines bytes : Nat) (e : Entry) : Entry :=
  { e with line := e.line + lines, position := e.position + bytes }

/-- A failure of a line that stands further back.  The end of a session stands in no line. -/
def Failure.shift (lines : Nat) : Failure → Failure
  | line number fault => .line (number + lines) fault
  | resolution fault => .resolution fault

/-- An assembly behind another one, for a given origin. -/
def Assembly.behind (asm front : Assembly) (lines : Nat) (origin : Address) : Assembly where
  code := front.code.emit asm.code.toList
  origin := some origin
  symbols := asm.symbols.mapValues (· + front.code.size)
  listing := front.listing ++ asm.listing.map (Entry.shift lines front.code.size)

namespace Session

variable {setup : Setup} {s front after : Session} {raw : Text}

/-- A session behind another one, which has only emitted code. -/
def behind (s front : Session) : Session where
  bindings := s.bindings
  labels := s.labels.mapValues (· + front.position)
  references := s.references.shift front.position
  code := front.code.emit s.code.toList
  origin := s.origin
  listing := front.listing ++ s.listing.map (Entry.shift front.lines front.position)
  lines := s.lines + front.lines

@[simp] theorem position_behind (s front : Session) :
    (s.behind front).position = s.position + front.position := by
  rw [position, behind, CodeBuffer.size_emit, CodeBuffer.length_toList, Nat.add_comm]
  rfl

/-! ### One step -/

@[simp]
theorem count_behind (s front : Session) : s.count.behind front = (s.behind front).count := by
  rw [behind, behind, count, count, Nat.add_right_comm]

theorem apply_behind (s front : Session) (step : Step) :
    (s.apply step).behind front = (s.behind front).apply step := by
  cases step with
  | declare name =>
    have hlabels := Dictionary.mapValues_insert (· + front.position) s.labels name s.position
    rw [← position_behind] at hlabels
    rw [apply, apply, behind, hlabels]
    rfl
  | emit statement encoding =>
    have hcode : front.code.emit (s.code.emit encoding.bytes).toList =
        (front.code.emit s.code.toList).emit encoding.bytes := by
      apply CodeBuffer.toList_injective
      simp only [CodeBuffer.toList_emit, List.append_assoc]
    have hentry : Entry.shift front.lines front.position
        ⟨s.lines, s.position, encoding.bytes.length, statement.text⟩ =
          ⟨(s.behind front).lines, (s.behind front).position, encoding.bytes.length,
            statement.text⟩ := by
      rw [position_behind]
      rfl
    rw [apply, apply, behind]
    dsimp only
    rw [hcode, Array.map_push, hentry, Array.append_push]
    cases encoding.reference with
    | none => rfl
    | some reference =>
      dsimp only
      rw [References.record_shift, ← position_behind]
      rfl
  | _ => rfl

@[simp] theorem interpret_behind (setup : Setup) (s front : Session) (raw : Text) :
    (s.behind front).interpret setup raw = s.interpret setup raw := by
  refine interpret_congr rfl fun name => ?_
  rw [behind, Dictionary.get?_mapValues, Option.isSome_map]

/-! ### Many lines -/

/-- Lines behind others are taken as they are without those. -/
theorem advance_behind (setup : Setup) (s front : Session) (lines : List Text) :
    (s.behind front).advance setup lines =
      ((s.advance setup lines).map (·.behind front)).mapError (Failure.shift front.lines) := by
  induction lines generalizing s with
  | nil => rfl
  | cons raw rest ih =>
    rw [advance, advance, interpret_behind]
    cases s.interpret setup raw with
    | error fault =>
      refine congrArg (fun n => Except.error (Failure.line n fault)) ?_
      change s.lines + front.lines + 1 = s.lines + 1 + front.lines
      omega
    | ok step =>
      dsimp only
      rw [← ih, apply_behind, count_behind]

/-! ### The end -/

/-- Behind other code and with a lower origin, a session ends as it does without. -/
theorem finish_behind {history : History} (h : Run setup start history s)
    (horigin : s.origin = none) {low high : Address}
    (hlow : low.toNat + front.position = high.toNat) {asm : Assembly}
    (hcode : asm.code = front.code) (hlisting : asm.listing = front.listing.toList) :
    ((s.behind front).finish (setup.withOrigin (some low))).2 =
      ((s.finish (setup.withOrigin (some high))).2.map
        (·.behind asm front.lines low)).mapError (Failure.shift front.lines) := by
  have heffective : ∀ origin : Address,
      s.effectiveOrigin (setup.withOrigin (some origin)).settings = some origin := by
    intro origin
    rw [effectiveOrigin, horigin]
    rfl
  have hmoved : (s.behind front).effectiveOrigin (setup.withOrigin (some low)).settings =
      some low :=
    heffective low
  have hwrite := Request.writeAll_shift s.labels front.code hlow fun r hr => h.request_inside hr
  rw [finish_outcome (h.filled_start.shift front.position : (s.behind front).references.Filled),
    finish_outcome h.filled_start, heffective, hmoved]
  change Except.mapError _
    (Except.map _ (Request.writeAll (s.labels.mapValues (· + front.code.size)) (some low)
      (front.code.emit s.code.toList) (s.references.shift front.position).requests)) = _
  rw [References.requests_shift]
  change Except.mapError _ (Except.map _ (Request.writeAll _ _ _
    (s.references.requests.map (Request.shift front.code.size)))) = _
  rw [hwrite]
  cases Request.writeAll s.labels (some high) s.code s.references.requests with
  | error fault => rfl
  | ok code =>
    refine congrArg Except.ok ?_
    simp only [Assembly.behind, hcode, hlisting, behind, Array.toList_append, Array.toList_map]
    rfl

end Session

/-! ## Lines in front -/

/-- A step that emits code or nothing, and refers to no label. -/
def Step.Plain : Step → Prop
  | .nothing => True
  | .emit statement _ => ∀ name, .label name ∉ statement.operands
  | _ => False

namespace Session

variable {setup : Setup} {s front after : Session}

/-- Plain lines change only the code, the listing and the number of lines. -/
theorem advance_of_plain {lines : List Text}
    (h : ∀ step? ∈ s.lineSteps setup lines, ∃ step, step? = some step ∧ step.Plain) :
    ∃ after, s.advance setup lines = .ok after ∧ after.bindings = s.bindings ∧
      after.labels = s.labels ∧ after.references = s.references ∧ after.origin = s.origin ∧
      after.lines = s.lines + lines.length := by
  induction lines generalizing s with
  | nil => exact ⟨s, rfl, rfl, rfl, rfl, rfl, rfl⟩
  | cons raw rest ih =>
    cases hstep : s.interpret setup raw with
    | error fault =>
      rw [lineSteps_cons_of_error rest hstep] at h
      obtain ⟨step, hnone, -⟩ := h none List.mem_cons_self
      cases hnone
    | ok step =>
      rw [lineSteps_cons_of_ok rest hstep] at h
      obtain ⟨_, hsome, hplain⟩ := h (some step) List.mem_cons_self
      cases hsome
      obtain ⟨after, hafter, hbindings, hlabels, hreferences, horigin, hlines⟩ :=
        ih fun step? hmem => h step? (List.mem_cons_of_mem _ hmem)
      have hcount : after.lines = s.lines + (raw :: rest).length := by
        rw [hlines, lines_apply, lines_count, List.length_cons]
        omega
      refine ⟨after, by rw [advance, hstep]; exact hafter, ?_⟩
      rw [hbindings, hlabels, hreferences, horigin]
      cases step with
      | nothing => exact ⟨rfl, rfl, rfl, rfl, hcount⟩
      | emit statement encoding =>
        have hnone : encoding.reference = none := by
          cases hreference : encoding.reference with
          | none => rfl
          | some reference =>
            obtain ⟨hnames, -, -⟩ :=
              Encoding.ofStatement_eq_ok (ofStatement_of_interpret hstep)
            rw [hreference] at hnames
            exact absurd (Encoding.mem_of_referenceOf hnames) (hplain _)
        refine ⟨rfl, rfl, ?_, rfl, hcount⟩
        rw [apply, hnone]
        rfl
      | _ => exact hplain.elim

/-- A session that has only emitted code stands in front of nothing. -/
theorem start_behind (hbindings : front.bindings = .empty) (hlabels : front.labels = .empty)
    (hreferences : front.references = .empty) (horigin : front.origin = none) :
    start.behind front = front := by
  obtain ⟨bindings, labels, references, code, origin, listing, lines⟩ := front
  cases hbindings
  cases hlabels
  cases hreferences
  cases horigin
  have hcode : code.emit [] = code := by
    apply CodeBuffer.toList_injective
    rw [CodeBuffer.toList_emit, List.append_nil]
  change Session.mk .empty .empty .empty (code.emit []) none (listing ++ #[].map _) (0 + lines) = _
  rw [hcode, Array.map_empty, Array.append_empty, Nat.zero_add]
  rfl

/-- Lines that are blank or statements without a label have an assembly, `first`, and may stand in
front of any lines of which none sets the origin.  With an origin that is lower by the size of the
code in front, all the lines fail if and only if the lines behind fail without those in front, for
the same reason and in the line further down; otherwise the code, the symbols and the listing of the
lines behind follow `first`, further back. -/
theorem relocation_behind_front (setup : Setup) (front body : List Text)
    (hfront : ∀ step? ∈ start.lineSteps setup front, ∃ step, step? = some step ∧ step.Plain)
    (hbody : ∀ origin, some (.load origin) ∉ start.lineSteps setup body) :
    ∃ first, (start.run setup front).2 = .ok first ∧
      ∀ low high : Address, low.toNat + first.code.size = high.toNat →
        (start.run (setup.withOrigin (some low)) (front ++ body)).2 =
          ((start.run (setup.withOrigin (some high)) body).2.map
            (·.behind first front.length low)).mapError (Failure.shift front.length) := by
  obtain ⟨s, hs, hbindings, hlabels, hreferences, horigin, hlines⟩ := advance_of_plain hfront
  have hnumber : s.lines = front.length := by
    rw [hlines]
    exact Nat.zero_add _
  have hrequests : s.references.requests = [] := by
    rw [hreferences]
    rfl
  refine ⟨⟨s.code, s.effectiveOrigin setup.settings, s.labels, s.listing.toList⟩, ?_, ?_⟩
  · rw [run_eq_advance, hs]
    change (s.finish setup).2 = _
    rw [finish_outcome (run_of_advance hs).filled_start, hrequests]
    rfl
  · intro low high hlow
    rw [run_eq_advance, run_eq_advance, advance_withOrigin, advance_withOrigin, advance_append, hs]
    have hmoved := advance_behind setup start s body
    rw [start_behind hbindings hlabels hreferences horigin, hnumber] at hmoved
    change (s.advance setup body >>= _) = _
    rw [hmoved]
    cases hbodyRun : start.advance setup body with
    | error failure => rfl
    | ok after =>
      have hafter : after.origin = none := origin_of_advance hbodyRun hbody
      rw [← hnumber]
      exact finish_behind (run_of_advance hbodyRun) hafter hlow rfl rfl

/-- Lines that only emit code, three bytes of it. -/
def plainLines : List Text := ["nop", "", "ld a,7"].map String.toList

/-- The label of the sample has one address, `0x4003`, with the plain lines in front and without. -/
theorem sampleLines_behind_plainLines :
    (∀ step? ∈ start.lineSteps sampleSetup plainLines, ∃ step, step? = some step ∧ step.Plain) ∧
    (∀ origin, some (.load origin) ∉ start.lineSteps sampleSetup (sampleLines.take 3)) ∧
    (start.run (sampleSetup.withOrigin (some 0x3FFD)) (plainLines ++ sampleLines.take 3)).2 = .ok
      { code := ⟨#[0x00, 0x3E, 0x07, 0xC3, 0x03, 0x40, 0x18, 0xFE]⟩
        origin := some 0x3FFD
        symbols := Dictionary.empty.insert "a".toList 6
        listing := [⟨1, 0, 1, "nop".toList⟩, ⟨3, 1, 2, "ld a,7".toList⟩, ⟨4, 3, 3, "jp :a".toList⟩,
          ⟨6, 6, 2, "jr :a".toList⟩] } := by
  have hsteps : start.lineSteps sampleSetup plainLines =
      [some (.emit ⟨"nop".toList, []⟩ ⟨[0x00], .fixed, none⟩), some .nothing,
        some (.emit ⟨"ld".toList, [.register "a".toList, .immediate "7".toList]⟩
          ⟨[0x3E, 0x07], .numbered 1 .byte, none⟩)] := by
    decide +kernel
  have hfront : ∀ step? ∈ start.lineSteps sampleSetup plainLines,
      ∃ step, step? = some step ∧ step.Plain := by
    rw [hsteps]
    simp [Step.Plain]
  have hbodySteps : start.lineSteps sampleSetup (sampleLines.take 3) =
      [some (.emit ⟨"jp".toList, [.label "a".toList]⟩
          ⟨[0xC3, 0, 0], .numbered 1 .word, some ⟨"a".toList, .absolute⟩⟩),
        some (.declare "a".toList),
        some (.emit ⟨"jr".toList, [.label "a".toList]⟩
          ⟨[0x18, 0], .numbered 1 .byte, some ⟨"a".toList, .relative⟩⟩)] := by
    decide +kernel
  have hbody : ∀ origin,
      some (.load origin) ∉ start.lineSteps sampleSetup (sampleLines.take 3) := by
    rw [hbodySteps]
    simp
  obtain ⟨first, hfirst, hmoved⟩ :=
    relocation_behind_front sampleSetup plainLines (sampleLines.take 3) hfront hbody
  have hcode : (start.run sampleSetup plainLines).2 = .ok
      ⟨⟨#[0x00, 0x3E, 0x07]⟩, none, .empty,
        [⟨1, 0, 1, "nop".toList⟩, ⟨3, 1, 2, "ld a,7".toList⟩]⟩ := by
    decide +kernel
  have hbodyRun : (start.run (sampleSetup.withOrigin (some 0x4000)) (sampleLines.take 3)).2 = .ok
      ⟨⟨#[0xC3, 0x03, 0x40, 0x18, 0xFE]⟩, some 0x4000, Dictionary.empty.insert "a".toList 3,
        [⟨1, 0, 3, "jp :a".toList⟩, ⟨3, 3, 2, "jr :a".toList⟩]⟩ := by
    decide +kernel
  cases hfirst.symm.trans hcode
  refine ⟨hfront, hbody, ?_⟩
  rw [hmoved 0x3FFD 0x4000 (by decide), hbodyRun]
  decide +kernel

end Session

end Z80
