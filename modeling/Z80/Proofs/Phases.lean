import Z80.Proofs.Pending

/-!
# Faults by phase

A line fails for what stands in it, and the end of a session for the value of a label.  Neither has
a fault of the other phase, and a patch never falls outside the code.
-/

namespace Z80

namespace Fault

/-- The faults that a line may have. -/
def OfLine : Fault → Prop
  | missingOrigin _ => False
  | unresolvedLabel _ => False
  | offsetOutOfRange _ _ => False
  | patchOutOfBounds _ _ => False
  | _ => True

/-- The faults that the end of a session may have. -/
inductive OfResolution : Fault → Prop
  | missingOrigin (label : Text) : OfResolution (.missingOrigin label)
  | unresolvedLabel (label : Text) : OfResolution (.unresolvedLabel label)
  | valueOutOfRange (value : Int) : OfResolution (.valueOutOfRange value 16)
  | offsetOutOfRange (label : Text) (offset : Int) : OfResolution (.offsetOutOfRange label offset)

end Fault

/-! ## Lines -/

theorem Literal.faults_read (token : Text) : FaultsIn Fault.OfLine (Literal.read token) := by
  rw [Literal.read]
  split
  · exact .ok _
  · exact .error trivial

theorem Width.faults_encode (w : Width) (value : Int) : FaultsIn Fault.OfLine (w.encode value) := by
  rw [Width.encode]
  split
  · exact .ok _
  · exact .error trivial

namespace Line

theorem faults_foldCase (t : Text) : FaultsIn Fault.OfLine (foldCase t) := by
  rw [foldCase]
  split
  · exact .ok _
  · split
    · exact .ok _
    · split
      · exact .error trivial
      · split
        · exact .error trivial
        · exact .ok _

theorem faults_readVariable (t : Text) : FaultsIn Fault.OfLine (readVariable t) := by
  rw [readVariable]
  dsimp only
  split
  · exact .error trivial
  · split
    · exact .error trivial
    · exact .ok _

theorem faults_readOrigin (t rest : Text) : FaultsIn Fault.OfLine (readOrigin t rest) := by
  rw [readOrigin]
  split
  · exact .error trivial
  · split
    · next fault hfault => exact .error (Literal.faults_read _ fault hfault)
    · split
      · exact .ok _
      · exact .error trivial

theorem faults_ofFolded (t : Text) : FaultsIn Fault.OfLine (ofFolded t) := by
  rw [ofFolded.eq_def]
  split
  · dsimp only
    split
    · exact .error trivial
    · exact .ok _
  · split
    · exact faults_readOrigin _ _
    · exact .ok _

theorem faults_read (vars : Variables) (raw : Text) :
    FaultsIn Fault.OfLine (Line.read vars raw) := by
  rw [Line.read]
  split
  · exact .ok _
  · exact faults_readVariable _
  · split
    · next fault hfault => exact .error (faults_foldCase _ fault hfault)
    · exact faults_ofFolded _

end Line

/-! ## Statements -/

theorem Operand.faults_read (v : Vocabulary) (piece : Text) :
    FaultsIn Fault.OfLine (Operand.read v piece) := by
  rw [Operand.read, Operand.ofTrimmed.eq_def]
  split
  · dsimp only
    split
    · exact .error trivial
    · split
      · exact .error trivial
      · exact .ok _
  · exact .ok _
  · split
    · exact .error trivial
    · split <;> exact .ok _

theorem Statement.faults_read (v : Vocabulary) (line : Text) :
    FaultsIn Fault.OfLine (Statement.read v line) := by
  have hoperands : ∀ t rest, FaultsIn Fault.OfLine (readOperands v t rest) := by
    intro t rest
    rw [readOperands]
    split
    · exact .error trivial
    · exact .mapM (Operand.faults_read v) _
  rw [Statement.read]
  dsimp only
  split
  · exact .ok _
  · split
    · exact .ok _
    · exact .map _ (hoperands _ _)

namespace Encoding

variable (table : OpcodeTable) (s : Statement)

theorem faults_labelOf (operands : List Operand) : FaultsIn Fault.OfLine (labelOf s operands) := by
  fun_induction labelOf s operands with
  | case1 => exact .ok _
  | case2 name => exact .ok _
  | case3 => exact .error trivial
  | case4 operand rest _ _ ih => exact ih

theorem faults_referenceOf (v : Vocabulary) : FaultsIn Fault.OfLine (referenceOf v s) := by
  rw [referenceOf]
  split
  · exact .error trivial
  · split
    · next fault hfault => exact .error (faults_labelOf s _ fault hfault)
    · exact .ok _
    · split
      · exact .ok _
      · exact .error trivial

theorem faults_valueOf (operand : Operand) : FaultsIn Fault.OfLine (valueOf operand) := by
  rw [valueOf]
  split
  · exact Literal.faults_read _
  · exact .ok _

theorem faults_instruction : FaultsIn Fault.OfLine (instruction table s) := by
  rw [instruction]
  split
  · exact .ok _
  · split
    · exact .error trivial
    · next rule operand _ =>
      refine .bind (faults_valueOf operand) fun value _ => ?_
      exact .bind (Width.faults_encode rule.width value) fun number _ => .ok _

theorem faults_dataBytes : FaultsIn Fault.OfLine (dataBytes s) := by
  have hbyte : ∀ operand, FaultsIn Fault.OfLine (dataByte operand) := by
    intro operand
    rw [dataByte.eq_def]
    split
    · exact .bind (Literal.faults_read _) fun value _ => Width.faults_encode _ value
    · exact .error trivial
  rw [dataBytes]
  split
  · exact .error trivial
  · exact .bind (.mapM hbyte _) fun bytes _ => .ok _

theorem faults_dataText : FaultsIn Fault.OfLine (dataText s) := by
  rw [dataText]
  split
  · exact .error trivial
  · exact .ok _

theorem faults_placeholder : FaultsIn Fault.OfLine (placeholder table s) := by
  rw [placeholder]
  split
  · exact faults_dataBytes s
  · split
    · exact faults_dataText s
    · exact faults_instruction table s

theorem faults_ofStatement : FaultsIn Fault.OfLine (ofStatement table s) := by
  refine .bind (faults_referenceOf s table.vocabulary) fun reference? _ => ?_
  refine .bind (faults_placeholder table s) fun encoding _ => ?_
  cases reference? with
  | none => exact .ok _
  | some reference =>
    dsimp only
    split
    · exact .ok _
    · exact .error trivial

end Encoding

/-! ## Sessions -/

theorem Request.faults_operand (labels : Labels) (origin : Option Address) (r : Request) :
    FaultsIn Fault.OfResolution (r.operand labels origin) := by
  obtain ⟨⟨label, jump⟩, site⟩ := r
  refine .bind ?_ fun target _ => ?_
  · cases jump with
    | absolute =>
      cases origin with
      | none => exact .error (.missingOrigin label)
      | some start =>
        rw [Target.ofLabel, Target.ofAddress]
        split
        · exact .error (.unresolvedLabel label)
        · rw [Target.ofValue]
          split
          · exact .ok _
          · exact .error (.valueOutOfRange _)
    | relative =>
      rw [Target.ofLabel, Target.ofPosition]
      split
      · exact .ok _
      · exact .error (.unresolvedLabel label)
  · cases target with
    | address value => exact .ok _
    | position value =>
      rw [Target.operand]
      dsimp only
      split
      · exact .ok _
      · exact .error (.offsetOutOfRange label _)

namespace Session

variable {setup : Setup} {s : Session}

theorem faults_interpret (setup : Setup) (s : Session) (raw : Text) :
    FaultsIn Fault.OfLine (s.interpret setup raw) := by
  refine .bind (Line.faults_read s.bindings raw) fun line _ => ?_
  cases line with
  | blank => exact .ok _
  | binding name value => exact .ok _
  | origin address => exact .ok _
  | label name =>
    dsimp only
    split
    · exact .error trivial
    · exact .ok _
  | statement text =>
    refine .bind (Statement.faults_read _ text) fun statement _ => ?_
    exact .bind (Encoding.faults_ofStatement setup.table statement) fun encoding _ => .ok _

/-- The end of a session fails only for the value of a label. -/
theorem Run.finish_fault {history : History} (h : Run setup start history s) {failure : Failure}
    (hfailure : (s.finish setup).2 = .error failure) :
    ∃ fault, failure = .resolution fault ∧ fault.OfResolution := by
  obtain ⟨fault, rfl, hfault⟩ := finish_eq_error h.filled_start hfailure
  obtain ⟨r, hr, hoperand⟩ :=
    Request.exists_fault_of_writeAll hfault fun r hr => h.request_inside hr
  exact ⟨fault, rfl, Request.faults_operand _ _ r fault hoperand⟩

/-- Whatever lines a session has taken: each request that waits for a label lies inside the code, on
zero bytes that belong to one entry of the listing, which is an opcode of one byte and those bytes;
the end of the session fails only for the value of a label, and the next line never does. -/
theorem faults_by_phase (setup : Setup) (lines : List Text) :
    (∀ r ∈ (start.replay setup lines).1.references.requests,
      r.site + 1 + r.size ≤ (start.replay setup lines).1.code.size ∧
      (∀ i, r.Covers i → (start.replay setup lines).1.code.toList[i]? = some 0) ∧
      ∃ (j : Nat) (e : Entry), (start.replay setup lines).1.listing[j]? = some e ∧
        e.position = r.site ∧ e.length = 1 + r.size ∧
        ∀ i, r.Covers i → ∀ (j' : Nat) (e' : Entry),
          (start.replay setup lines).1.listing[j']? = some e' → (e'.Holds i ↔ j' = j)) ∧
    (∀ failure, ((start.replay setup lines).1.finish setup).2 = .error failure →
      ∃ fault, failure = .resolution fault ∧ fault.OfResolution) ∧
    ∀ raw failure, ((start.replay setup lines).1.push setup raw).2 = .error failure →
      ∃ fault, failure = .line ((start.replay setup lines).1.lines + 1) fault ∧ fault.OfLine := by
  have hrun := run_replay setup start lines
  refine ⟨?_, ?_, ?_⟩
  · intro r hr
    exact ⟨hrun.request_inside hr, fun i hi => hrun.getElem?_of_covers hr hi,
      hrun.entry_of_request hr⟩
  · intro failure hfailure
    exact hrun.finish_fault hfailure
  · intro raw failure hfailure
    obtain ⟨fault, hfault, rfl⟩ := push_eq_error hfailure
    exact ⟨fault, rfl, faults_interpret setup _ raw fault hfault⟩

/-- Without an origin, the end of the sample fails for its jump to an address. -/
theorem sample_faults_by_phase :
    (∃ r ∈ (start.replay sampleSetup sampleLines.dropLast).1.references.requests,
      r = ⟨⟨"a".toList, .relative⟩, 3⟩ ∧
      r.site + 1 + r.size ≤ (start.replay sampleSetup sampleLines.dropLast).1.code.size) ∧
    ((start.replay sampleSetup sampleLines.dropLast).1.finish sampleSetup).2 =
      .error (.resolution (.missingOrigin "a".toList)) ∧
    (Fault.missingOrigin "a".toList).OfResolution := by
  have hmem : ⟨⟨"a".toList, .relative⟩, 3⟩ ∈
      (start.replay sampleSetup sampleLines.dropLast).1.references.requests := by
    decide +kernel
  have hfinish : ((start.replay sampleSetup sampleLines.dropLast).1.finish sampleSetup).2 =
      .error (.resolution (.missingOrigin "a".toList)) := by
    decide +kernel
  obtain ⟨hpending, hend, -⟩ := faults_by_phase sampleSetup sampleLines.dropLast
  obtain ⟨fault, heq, hfault⟩ := hend _ hfinish
  cases heq
  exact ⟨⟨_, hmem, rfl, (hpending _ hmem).1⟩, hfinish, hfault⟩

end Session

end Z80
