import Z80.Proofs.Outcome
import Z80.Proofs.Source

/-!
# Resolution without names

References are resolved by label, so the names of the labels decide the order in which the code is
written.  They decide nothing else.  If no two references want the same byte, the code depends only
on what each of them demands: a site, a kind of jump, and the position of a label.  It is the same
for labels with other names, and for references that were recorded in another order.
-/

namespace Z80

/-! ## Demands -/

/-- What a request demands, whatever its label is called.  A label that is not declared has no
place. -/
structure Demand where
  site : Nat
  jump : Jump
  place : Option Nat
  deriving DecidableEq

namespace Demand

/-- Where the operand ends that is demanded.  It starts after an opcode of one byte. -/
def stop (d : Demand) : Nat := d.site + 1 + d.jump.width.size

/-- Whether one operand ends before the other one starts. -/
def Apart (d d' : Demand) : Prop := d.stop ≤ d'.site + 1 ∨ d'.stop ≤ d.site + 1

instance (d d' : Demand) : Decidable (Apart d d') := inferInstanceAs (Decidable (_ ∨ _))

theorem Apart.symm {d d' : Demand} (h : Apart d d') : Apart d' d := Or.symm h

end Demand

/-- Whether two resolutions both fail, or both succeed with the same count and the same code. -/
def Resolution.Agrees (a b : Resolution) : Prop :=
  ∀ n, (a.outcome = .ok n ↔ b.outcome = .ok n) ∧ (a.outcome = .ok n → a.code = b.code)

namespace Request

variable {labels labels' : Labels} {origin : Option Address} {code code' : CodeBuffer}
    {r r' : Request}
  {requests requests' : List Request}

def demand (labels : Labels) (r : Request) : Demand :=
  ⟨r.site, r.reference.jump, labels.get? r.reference.label⟩

/-- What is written for a request is what it demands. -/
theorem operand_of_demand (h : r.demand labels = r'.demand labels') {bytes : List UInt8}
    (hbytes : r.operand labels origin = .ok bytes) : r'.operand labels' origin = .ok bytes := by
  obtain ⟨⟨label, jump⟩, site⟩ := r
  obtain ⟨⟨label', jump'⟩, site'⟩ := r'
  obtain ⟨hsite, hjump, hplace⟩ := Demand.mk.inj h
  replace hsite : site = site' := hsite
  replace hjump : jump = jump' := hjump
  subst hsite hjump
  cases jump with
  | absolute =>
    obtain ⟨start, a, place, rfl, hlabel, ha, rfl⟩ := operand_absolute hbytes
    have hlabel' : labels'.get? label' = some place := hplace.symm.trans hlabel
    rw [operand, Target.ofLabel, Target.ofAddress, hlabel']
    dsimp only
    rw [Target.ofValue, ha]
    rfl
  | relative =>
    obtain ⟨place, b, hlabel, hb, rfl⟩ := operand_relative hbytes
    have hlabel' : labels'.get? label' = some place := hplace.symm.trans hlabel
    rw [operand, Target.ofLabel, Target.ofPosition, hlabel']
    change Target.operand label' site (.position place) = _
    rw [Target.operand, hb]

/-- Requests are all written if each has a number that fits and lies inside the code. -/
theorem exists_writeAll_iff :
    (∃ code', writeAll labels origin code requests = .ok code') ↔
      ∀ r ∈ requests, (∃ bytes, r.operand labels origin = .ok bytes) ∧
        r.site + 1 + r.size ≤ code.size := by
  constructor
  · rintro ⟨code', h⟩ r hr
    obtain ⟨bytes, hbytes⟩ := exists_operand_of_writeAll h hr
    refine ⟨⟨bytes, hbytes⟩, ?_⟩
    induction requests generalizing code with
    | nil => cases hr
    | cons r' rest ih =>
      obtain ⟨bytes', middle, hbytes', hpatch, hrest⟩ := writeAll_cons_eq_ok h
      rcases List.mem_cons.mp hr with rfl | hr
      · rw [← length_operand hbytes']
        exact CodeBuffer.le_size_of_patch hpatch
      · rw [← CodeBuffer.size_patch hpatch]
        exact ih hrest hr
  · intro h
    cases hwritten : writeAll labels origin code requests with
    | ok code' => exact ⟨code', rfl⟩
    | error fault =>
      obtain ⟨r, hr, hfault⟩ := exists_fault_of_writeAll hwritten fun r hr => (h r hr).2
      obtain ⟨bytes, hbytes⟩ := (h r hr).1
      rw [hfault] at hbytes
      cases hbytes

theorem eq_of_covers (h : (requests.map (demand labels)).Pairwise Demand.Apart) (hr : r ∈ requests)
    (hr' : r' ∈ requests) {i : Nat} (hi : r.Covers i) (hi' : r'.Covers i) : r' = r := by
  by_contra hne
  rw [List.pairwise_map] at h
  have : Std.Symm fun r r' : Request => Demand.Apart (r.demand labels) (r'.demand labels) :=
    ⟨fun _ _ => Demand.Apart.symm⟩
  obtain ⟨hlo, hhi⟩ := hi
  obtain ⟨hlo', hhi'⟩ := hi'
  rcases h.forall hr' hr hne with hstop | hstop
  · replace hstop : r'.site + 1 + r'.size ≤ r.site + 1 := hstop
    omega
  · replace hstop : r.site + 1 + r.size ≤ r'.site + 1 := hstop
    omega

/-! ## The same demands -/

section

variable (hdemands : (requests.map (demand labels)).Perm (requests'.map (demand labels')))

include hdemands

theorem exists_demand_eq (hr : r ∈ requests) :
    ∃ r' ∈ requests', r'.demand labels' = r.demand labels :=
  List.mem_map.mp (hdemands.subset (List.mem_map_of_mem hr))

/-- Whether requests can be written depends on what they demand. -/
theorem exists_writeAll_of_demands (h : ∃ code', writeAll labels origin code requests = .ok code') :
    ∃ code', writeAll labels' origin code requests' = .ok code' := by
  rw [exists_writeAll_iff] at h ⊢
  intro r' hr'
  obtain ⟨r, hr, hdemand⟩ := exists_demand_eq hdemands.symm hr'
  obtain ⟨⟨bytes, hbytes⟩, hinside⟩ := h r hr
  refine ⟨⟨bytes, operand_of_demand hdemand hbytes⟩, ?_⟩
  have hsite : r.site = r'.site := congrArg Demand.site hdemand
  have hjump : r.reference.jump = r'.reference.jump := congrArg Demand.jump hdemand
  rwa [size, hsite, hjump] at hinside

/-- Requests that keep apart leave the code that their demands call for. -/
theorem writeAll_of_demands (hapart : (requests.map (demand labels)).Pairwise Demand.Apart)
    (h : writeAll labels origin code requests = .ok code')
    {code'' : CodeBuffer} (h' : writeAll labels' origin code requests' = .ok code'') :
    code' = code'' := by
  have hapart' : (requests'.map (demand labels')).Pairwise Demand.Apart :=
    (hdemands.pairwise_iff Demand.Apart.symm).mp hapart
  have hcovers : ∀ {r r' : Request}, r'.demand labels' = r.demand labels →
      ∀ i, r'.Covers i ↔ r.Covers i := by
    intro r r' hdemand i
    have hsite : r'.site = r.site := congrArg Demand.site hdemand
    have hjump : r'.reference.jump = r.reference.jump := congrArg Demand.jump hdemand
    rw [Covers, Covers, size, size, hsite, hjump]
  apply CodeBuffer.toList_injective
  apply List.ext_getElem?
  intro i
  by_cases hi : ∃ r ∈ requests, r.Covers i
  · obtain ⟨r, hr, hi⟩ := hi
    obtain ⟨r', hr', hdemand⟩ := exists_demand_eq hdemands hr
    obtain ⟨bytes, hbytes⟩ := exists_operand_of_writeAll h hr
    have hi' : r'.Covers i := (hcovers hdemand i).mpr hi
    have hsite : r'.site = r.site := congrArg Demand.site hdemand
    rw [getElem?_writeAll_of_covers h hr hbytes hi
        fun _ hs hcov => eq_of_covers hapart hr hs hi hcov,
      getElem?_writeAll_of_covers h' hr' (operand_of_demand hdemand.symm hbytes) hi'
        fun _ hs hcov => eq_of_covers hapart' hr' hs hi' hcov, hsite]
  · have hi' : ∀ r' ∈ requests', ¬ r'.Covers i := by
      intro r' hr' hcov
      obtain ⟨r, hr, hdemand⟩ := exists_demand_eq hdemands.symm hr'
      exact hi ⟨r, hr, (hcovers hdemand.symm i).mp hcov⟩
    rw [getElem?_writeAll_of_not_covers h fun r hr hcov => hi ⟨r, hr, hcov⟩,
      getElem?_writeAll_of_not_covers h' hi']

end

end Request

/-! ## Resolutions -/

namespace References

variable {labels labels' : Labels} {origin : Option Address} {code : CodeBuffer}
  {requests requests' : List Request}

theorem perm_requests_recordAll (requests : List Request) :
    (recordAll requests).requests.Perm requests := by
  rw [requests_recordAll]
  exact Request.perm_inOrder requests

/-- A resolution succeeds if all its requests can be written, and counts them. -/
theorem outcome_eq_ok {n : Nat} :
    ((recordAll requests).resolve labels origin code).outcome = .ok n ↔
      n = requests.length ∧
        ∃ code', Request.writeAll labels origin code (recordAll requests).requests = .ok code' := by
  have hresolve := resolve_eq_writeUntil (filled_recordAll requests) labels origin code
  rw [(perm_requests_recordAll requests).length_eq] at hresolve
  rw [Request.writeAll_eq_writeUntil]
  rcases hwritten : Request.writeUntil labels origin code (recordAll requests).requests with
    ⟨code', fault?⟩
  rw [hwritten] at hresolve
  cases fault? with
  | some fault =>
    obtain ⟨-, houtcome⟩ := Prod.mk.inj hresolve
    simp [houtcome]
  | none =>
    obtain ⟨-, houtcome⟩ := Prod.mk.inj hresolve
    simp [houtcome, eq_comm]

theorem writeAll_of_outcome {n : Nat}
    (h : ((recordAll requests).resolve labels origin code).outcome = .ok n) :
    Request.writeAll labels origin code (recordAll requests).requests =
      .ok ((recordAll requests).resolve labels origin code).code := by
  rw [writeAll_requests (filled_recordAll requests), h]
  rfl

/-- Requests that demand the same, and keep apart, are resolved alike. -/
theorem agrees_of_demands
    (hdemands : (requests.map (Request.demand labels)).Perm
      (requests'.map (Request.demand labels')))
    (hapart : (requests.map (Request.demand labels)).Pairwise Demand.Apart) :
    ((recordAll requests).resolve labels origin code).Agrees
      ((recordAll requests').resolve labels' origin code) := by
  have hordered := (perm_requests_recordAll requests).map (Request.demand labels)
  have hordered' := (perm_requests_recordAll requests').map (Request.demand labels')
  have hdemands' := (hordered.trans hdemands).trans hordered'.symm
  have hlength : requests.length = requests'.length := by simpa using hdemands.length_eq
  intro n
  have hiff : ((recordAll requests).resolve labels origin code).outcome = .ok n ↔
      ((recordAll requests').resolve labels' origin code).outcome = .ok n := by
    rw [outcome_eq_ok, outcome_eq_ok, hlength]
    refine and_congr_right fun _ => ⟨?_, ?_⟩
    · exact Request.exists_writeAll_of_demands hdemands'
    · exact Request.exists_writeAll_of_demands hdemands'.symm
  refine ⟨hiff, fun h => ?_⟩
  exact Request.writeAll_of_demands hdemands' ((hordered.pairwise_iff Demand.Apart.symm).mpr hapart)
    (writeAll_of_outcome h) (writeAll_of_outcome (hiff.mp h))

end References

/-! ## Other names -/

/-- The labels under other names. -/
def Dictionary.rename (f : Text → Text) (labels : Dictionary Nat) : Dictionary Nat :=
  Dictionary.empty.declare (labels.entries.map fun e => ⟨f e.1, e.2⟩)

/-- The request for a label that has another name now. -/
def Request.rename (f : Text → Text) (r : Request) : Request :=
  ⟨⟨f r.reference.label, r.reference.jump⟩, r.site⟩

theorem Dictionary.get?_rename {f : Text → Text} (hf : Function.Injective f)
    (labels : Dictionary Nat) (name : Text) :
    (labels.rename f).get? (f name) = labels.get? name := by
  cases hplace : labels.get? name with
  | some place =>
    have hdistinct : (labels.entries.map fun e => (⟨f e.1, e.2⟩ : Symbol)).Pairwise
        fun a b => a.name ≠ b.name := by
      rw [List.pairwise_map]
      refine labels.sorted.imp fun {e e'} hlt heq => ?_
      exact List.lt_irrefl _ (hf heq ▸ hlt)
    exact get?_declare_of_mem hdistinct (s := ⟨f name, place⟩)
      (List.mem_map.mpr ⟨(name, place), mem_entries.mpr hplace, rfl⟩)
  | none =>
    rw [rename, get?_declare_of_notMem, get?_empty]
    intro s hs heq
    obtain ⟨e, he, rfl⟩ := List.mem_map.mp hs
    have hname : e.1 = name := hf heq
    rw [← hname, mem_entries.mp he] at hplace
    cases hplace

namespace References

open Request (demand)

/-- If requests keep apart, only what they demand counts: not the names of their labels, and not the
order in which they were recorded. -/
theorem resolve_ignores_names (requests : List Request) (labels : Labels) (origin : Option Address)
    (code : CodeBuffer) (hapart : (requests.map (demand labels)).Pairwise Demand.Apart) :
    (∀ requests' labels', (requests.map (demand labels)).Perm (requests'.map (demand labels')) →
      ((recordAll requests).resolve labels origin code).Agrees
        ((recordAll requests').resolve labels' origin code)) ∧
    (∀ requests', requests.Perm requests' →
      ((recordAll requests).resolve labels origin code).Agrees
        ((recordAll requests').resolve labels origin code)) ∧
    ∀ f : Text → Text, Function.Injective f →
      ((recordAll requests).resolve labels origin code).Agrees
        ((recordAll (requests.map (Request.rename f))).resolve (labels.rename f) origin code) := by
  refine ⟨fun requests' labels' hdemands => agrees_of_demands hdemands hapart,
    fun requests' hperm => agrees_of_demands (hperm.map _) hapart, fun f hf => ?_⟩
  have hrenamed : (requests.map (Request.rename f)).map (demand (labels.rename f)) =
      requests.map (demand labels) := by
    rw [List.map_map]
    refine List.map_congr_left fun r _ => ?_
    exact congrArg (Demand.mk r.site r.reference.jump) (Dictionary.get?_rename hf labels _)
  exact agrees_of_demands (hrenamed ▸ .refl _) hapart

def crossedRequests : List Request :=
  [⟨⟨"a".toList, .absolute⟩, 0⟩, ⟨⟨"b".toList, .absolute⟩, 3⟩, ⟨⟨"a".toList, .relative⟩, 6⟩]

def crossedLabels : Labels := (Dictionary.empty.insert "a".toList 4).insert "b".toList 2

/-- Under other names, and recorded in another order, the references to `b` are written before those
to `a`. -/
theorem crossedRequests_ignore_names :
    let requests :=
      [⟨⟨"b".toList, .relative⟩, 6⟩, ⟨⟨"b".toList, .absolute⟩, 0⟩, ⟨⟨"a".toList, .absolute⟩, 3⟩]
    let labels := (Dictionary.empty.insert "a".toList 2).insert "b".toList 4
    let code := CodeBuffer.ofList [0xC3, 0, 0, 0xCD, 0, 0, 0x18, 0]
    (crossedRequests.map (demand crossedLabels)).Pairwise Demand.Apart ∧
    (crossedRequests.map (demand crossedLabels)).Perm (requests.map (demand labels)) ∧
    ((recordAll crossedRequests).resolve crossedLabels (some 0x8000) code).outcome = .ok 3 ∧
    ((recordAll crossedRequests).resolve crossedLabels (some 0x8000) code).Agrees
      ((recordAll requests).resolve labels (some 0x8000) code) := by
  intro requests labels code
  have hapart : (crossedRequests.map (demand crossedLabels)).Pairwise Demand.Apart := by decide
  have hdemands :
      (crossedRequests.map (demand crossedLabels)).Perm (requests.map (demand labels)) := by
    decide
  obtain ⟨hagrees, -, -⟩ :=
    resolve_ignores_names crossedRequests crossedLabels (some 0x8000) code hapart
  exact ⟨hapart, hdemands, by decide, hagrees requests labels hdemands⟩

end References

end Z80
