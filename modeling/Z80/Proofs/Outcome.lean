import Mathlib.Data.List.Induction
import Z80.Proofs.Resolution

/-!
# The outcome of resolution

References are kept in the order in which they are resolved: by kind, by label, and for one label as
they were recorded.  So the outcome follows from the checks of the single requests.  The first
request in that order that fails a check decides what is reported, and the code then holds the
numbers of the requests before it.
-/

namespace Z80

/-! ## The order of references -/

namespace Reference

/-- Addresses go before distances, and labels of one kind go by name. -/
def precedes (a b : Reference) : Bool :=
  match a.jump, b.jump with
  | .absolute, .relative => true
  | .relative, .absolute => false
  | _, _ => !decide (b.label < a.label)

variable {a b c : Reference}

theorem precedes_iff :
    a.precedes b = true ↔
      a.jump = .absolute ∧ b.jump = .relative ∨ a.jump = b.jump ∧ ¬ b.label < a.label := by
  obtain ⟨label, jump⟩ := a
  obtain ⟨label', jump'⟩ := b
  cases jump <;> cases jump' <;> simp [precedes]

@[simp] theorem precedes_refl (a : Reference) : a.precedes a = true :=
  precedes_iff.mpr (.inr ⟨rfl, List.lt_irrefl _⟩)

theorem precedes_trans (hab : a.precedes b = true) (hbc : b.precedes c = true) :
    a.precedes c = true := by
  rw [precedes_iff] at hab hbc ⊢
  rcases hab with ⟨ha, hb⟩ | ⟨hab, hlabels⟩
  · rcases hbc with ⟨hb', -⟩ | ⟨hbc, -⟩
    · rw [hb] at hb'
      cases hb'
    · exact .inl ⟨ha, hbc ▸ hb⟩
  · rcases hbc with ⟨hb, hc⟩ | ⟨hbc, hlabels'⟩
    · exact .inl ⟨hab ▸ hb, hc⟩
    · exact .inr ⟨hab.trans hbc, Text.not_lt_trans hlabels hlabels'⟩

theorem precedes_total (a b : Reference) : (a.precedes b || b.precedes a) = true := by
  rw [Bool.or_eq_true, precedes_iff, precedes_iff]
  obtain ⟨label, jump⟩ := a
  obtain ⟨label', jump'⟩ := b
  by_cases hlt : label' < label
  · have hle := Text.not_lt_of_lt hlt
    cases jump <;> cases jump' <;> simp [hle]
  · cases jump <;> cases jump' <;> simp [hlt]

theorem precedes_antisymm (hab : a.precedes b = true) (hba : b.precedes a = true) : a = b := by
  rw [precedes_iff] at hab hba
  obtain ⟨label, jump⟩ := a
  obtain ⟨label', jump'⟩ := b
  have hlabel : ¬ label' < label → ¬ label < label' → label = label' := fun h h' => by
    by_contra hne
    exact h (Text.lt_of_not_lt h' hne)
  cases jump <;> cases jump' <;> simp_all

end Reference

/-! ## The order of requests -/

namespace Request

/-- Requests by kind and by label.  Those of one label stay in the order in which they are given. -/
def inOrder (requests : List Request) : List Request :=
  requests.mergeSort fun r r' => r.reference.precedes r'.reference

/-- Requests by kind and by label, those of one label in any order. -/
def Sorted (requests : List Request) : Prop :=
  requests.Pairwise fun r r' => r.reference.precedes r'.reference = true

theorem perm_inOrder (requests : List Request) : (inOrder requests).Perm requests :=
  List.mergeSort_perm _ _

theorem sorted_inOrder (requests : List Request) : Sorted (inOrder requests) := by
  refine List.pairwise_mergeSort ?_ ?_ requests
  · intro r r' r''
    exact Reference.precedes_trans
  · intro r r'
    exact Reference.precedes_total r.reference r'.reference

theorem sorted_of_reference_eq {requests : List Request} (reference : Reference)
    (h : ∀ r ∈ requests, r.reference = reference) : Sorted requests := by
  refine List.pairwise_of_forall_mem_list fun r hr r' hr' => ?_
  rw [h r hr, h r' hr']
  exact reference.precedes_refl

/-- The requests of one label come through as they are. -/
@[simp] theorem filter_inOrder (requests : List Request) (reference : Reference) :
    (inOrder requests).filter (·.reference = reference) =
      requests.filter (·.reference = reference) := by
  have hlabel : Sorted (requests.filter (·.reference = reference)) :=
    sorted_of_reference_eq reference fun r hr => of_decide_eq_true (List.mem_filter.mp hr).2
  have hsublist : (requests.filter (·.reference = reference)).Sublist (inOrder requests) := by
    refine List.sublist_mergeSort ?_ ?_ hlabel List.filter_sublist
    · intro r r' r''
      exact Reference.precedes_trans
    · intro r r'
      exact Reference.precedes_total r.reference r'.reference
  have hfilter := hsublist.filter (·.reference = reference)
  simp only [List.filter_filter, Bool.and_self] at hfilter
  exact (hfilter.eq_of_length ((perm_inOrder requests).filter _).length_eq.symm).symm

theorem mem_iff_of_filter_eq {l l' : List Request}
    (h : ∀ reference, l.filter (·.reference = reference) = l'.filter (·.reference = reference))
    (r : Request) : r ∈ l ↔ r ∈ l' := by
  have hiff : r ∈ l.filter (·.reference = r.reference) ↔
      r ∈ l'.filter (·.reference = r.reference) := by
    rw [h]
  simpa using hiff

/-- Sorted requests are known from the requests of each label. -/
theorem eq_of_filter_eq {l l' : List Request} (hl : Sorted l) (hl' : Sorted l')
    (h : ∀ reference, l.filter (·.reference = reference) = l'.filter (·.reference = reference)) :
    l = l' := by
  have hmem := mem_iff_of_filter_eq h
  induction l generalizing l' with
  | nil =>
    symm
    rw [List.eq_nil_iff_forall_not_mem]
    intro r hr
    exact List.not_mem_nil ((hmem r).mpr hr)
  | cons r rest ih =>
    cases l' with
    | nil => exact absurd ((hmem r).mp List.mem_cons_self) List.not_mem_nil
    | cons r' rest' =>
      obtain ⟨hfirst, hrest⟩ := List.pairwise_cons.mp hl
      obtain ⟨hfirst', hrest'⟩ := List.pairwise_cons.mp hl'
      -- each of the two heads goes before the other, so they have one label
      have hreference : r.reference = r'.reference := by
        apply Reference.precedes_antisymm
        · rcases List.mem_cons.mp ((hmem r').mpr List.mem_cons_self) with heq | hr'
          · rw [heq]
            exact r.reference.precedes_refl
          · exact hfirst r' hr'
        · rcases List.mem_cons.mp ((hmem r).mp List.mem_cons_self) with heq | hr
          · rw [heq]
            exact r'.reference.precedes_refl
          · exact hfirst' r hr
      have hheads := h r.reference
      rw [List.filter_cons_of_pos (by simp), List.filter_cons_of_pos (by simp [hreference])]
        at hheads
      obtain ⟨rfl, -⟩ := List.cons.inj hheads
      have hlater : ∀ reference,
          rest.filter (·.reference = reference) = rest'.filter (·.reference = reference) := by
        intro reference
        have hboth := h reference
        rw [List.filter_cons, List.filter_cons] at hboth
        split at hboth
        · exact (List.cons.inj hboth).2
        · exact hboth
      rw [ih hrest hrest' hlater (mem_iff_of_filter_eq hlater)]

end Request

/-! ## Recording -/

namespace References

/-- The references after requests were recorded, one after the other. -/
def recordAll (requests : List Request) : References :=
  requests.foldl (fun refs r => refs.record r.site r.reference) empty

@[simp] theorem recordAll_concat (requests : List Request) (r : Request) :
    recordAll (requests ++ [r]) = (recordAll requests).record r.site r.reference := by
  simp [recordAll]

theorem filled_recordAll (requests : List Request) : (recordAll requests).Filled := by
  induction requests using List.reverseRecOn with
  | nil => exact filled_empty
  | append_singleton requests r ih =>
    rw [recordAll_concat]
    exact ih.record r.site r.reference

/-- The sites of a label are those that were recorded for it, in that order. -/
@[simp] theorem group?_recordAll (requests : List Request) (reference : Reference) :
    ((recordAll requests).group? reference).getD [] =
      (requests.filter (·.reference = reference)).map (·.site) := by
  induction requests using List.reverseRecOn with
  | nil =>
    obtain ⟨label, jump⟩ := reference
    cases jump <;> simp [recordAll, empty, group?]
  | append_singleton requests r ih =>
    rw [recordAll_concat, group?_record, List.filter_append, List.map_append, ← ih]
    by_cases h : reference = r.reference
    · subst h
      simp
    · simp [h, Ne.symm h]

theorem pairwise_toList (refs : References) :
    refs.toList.Pairwise fun g g' => g.1.precedes g'.1 = true ∧ g.1 ≠ g'.1 := by
  have hkind : ∀ (sites : Dictionary (List Nat)) (jump : Jump),
      (sites.entries.map fun e => ((⟨e.1, jump⟩ : Reference), e.2)).Pairwise
        fun g g' => g.1.precedes g'.1 = true ∧ g.1 ≠ g'.1 := by
    intro sites jump
    rw [List.pairwise_map]
    refine sites.sorted.imp fun {e e'} hlt => ⟨?_, ?_⟩
    · exact Reference.precedes_iff.mpr (.inr ⟨rfl, Text.not_lt_of_lt hlt⟩)
    · intro heq
      have hlabel : e.1 = e'.1 := congrArg Reference.label heq
      exact List.lt_irrefl _ (hlabel ▸ hlt)
  rw [toList, List.pairwise_append]
  refine ⟨hkind refs.absolute .absolute, hkind refs.relative .relative, ?_⟩
  intro g hg g' hg'
  obtain ⟨e, -, rfl⟩ := List.mem_map.mp hg
  obtain ⟨e', -, rfl⟩ := List.mem_map.mp hg'
  refine ⟨rfl, fun heq => ?_⟩
  cases congrArg Reference.jump heq

theorem sorted_requests (refs : References) : Request.Sorted refs.requests := by
  rw [Request.Sorted, requests, requestsOf, List.pairwise_flatMap]
  refine ⟨fun g _ => ?_, refs.pairwise_toList.imp fun h r hr r' hr' => ?_⟩
  · refine Request.sorted_of_reference_eq g.1 fun r hr => ?_
    obtain ⟨site, -, rfl⟩ := List.mem_map.mp hr
    rfl
  · obtain ⟨site, -, rfl⟩ := List.mem_map.mp hr
    obtain ⟨site', -, rfl⟩ := List.mem_map.mp hr'
    exact h.1

theorem filter_requestsOf_of_ne {groups : List (Reference × List Nat)} {reference : Reference}
    (h : ∀ g ∈ groups, g.1 ≠ reference) :
    (requestsOf groups).filter (·.reference = reference) = [] := by
  rw [List.filter_eq_nil_iff]
  intro r hr
  obtain ⟨g, hg, hr⟩ := List.mem_flatMap.mp hr
  obtain ⟨site, -, rfl⟩ := List.mem_map.mp hr
  simpa using h g hg

/-- The requests of one label are those of its sites. -/
@[simp] theorem filter_requests (refs : References) (reference : Reference) :
    refs.requests.filter (·.reference = reference) =
      ((refs.group? reference).getD []).map (Request.mk reference) := by
  cases hgroup : refs.group? reference with
  | none =>
    refine filter_requestsOf_of_ne fun g hg heq => ?_
    rw [← heq, mem_toList.mp hg] at hgroup
    cases hgroup
  | some sites =>
    obtain ⟨before, after, hsplit⟩ := List.append_of_mem (mem_toList.mpr hgroup)
    have hdistinct := refs.pairwise_toList
    rw [hsplit, List.pairwise_append, List.pairwise_cons] at hdistinct
    obtain ⟨-, ⟨hafter, -⟩, hbefore⟩ := hdistinct
    have hsites : (sites.map (Request.mk reference)).filter (·.reference = reference) =
        sites.map (Request.mk reference) := by
      simp [List.filter_eq_self]
    have hrequests : refs.requests =
        requestsOf before ++ (sites.map (Request.mk reference) ++ requestsOf after) := by
      rw [requests, hsplit, requestsOf, List.flatMap_append, List.flatMap_cons]
      rfl
    rw [hrequests, List.filter_append, List.filter_append, hsites,
      filter_requestsOf_of_ne fun g hg => (hbefore g hg _ List.mem_cons_self).2,
      filter_requestsOf_of_ne fun g hg => (hafter g hg).2.symm]
    simp

/-- What was recorded is resolved by kind, by label, and then as it was recorded. -/
@[simp] theorem requests_recordAll (requests : List Request) :
    (recordAll requests).requests = Request.inOrder requests := by
  refine Request.eq_of_filter_eq (sorted_requests _) (Request.sorted_inOrder requests)
    fun reference => ?_
  rw [filter_requests, group?_recordAll, Request.filter_inOrder, List.map_map]
  refine (List.map_congr_left fun r hr => ?_).trans (List.map_id _)
  obtain ⟨-, href⟩ := List.mem_filter.mp hr
  rw [← of_decide_eq_true href]
  rfl

end References

/-! ## Checks -/

namespace Request

/-- The number that a request asks for: an address, or the distance from the end of an instruction
of two bytes.  A label that is not declared counts as zero, and so does a missing origin. -/
def number (labels : Labels) (origin : Option Address) (r : Request) : Int :=
  let place : Int := (labels.get? r.reference.label).getD 0
  match r.reference.jump with
  | .absolute => (origin.getD 0).toNat + place
  | .relative => place - (r.site + 2)

/-- Why a request has no number that fits, in the order of the checks. -/
def numberFault? (labels : Labels) (origin : Option Address) : Request → Option Fault
  | ⟨⟨label, .absolute⟩, _⟩ =>
    match origin with
    | none => some (.missingOrigin label)
    | some start =>
      match labels.get? label with
      | none => some (.unresolvedLabel label)
      | some place =>
        if start.toNat + place ≤ 65535 then none
        else some (.valueOutOfRange (start.toNat + place) 16)
  | ⟨⟨label, .relative⟩, site⟩ =>
    match labels.get? label with
    | none => some (.unresolvedLabel label)
    | some place =>
      let distance : Int := place - (site + 2)
      if -128 ≤ distance ∧ distance ≤ 127 then none else some (.offsetOutOfRange label distance)

/-- The first check that a request fails, for code of the given size. -/
def fault? (labels : Labels) (origin : Option Address) (size : Nat) (r : Request) : Option Fault :=
  (r.numberFault? labels origin).or
    (if r.site + 1 + r.size ≤ size then none else some (.patchOutOfBounds (r.site + 1) size))

/-- The bytes with the number of a request in them. -/
def put (labels : Labels) (origin : Option Address) (bytes : List UInt8) (r : Request) :
    List UInt8 :=
  bytes.take (r.site + 1) ++ littleEndian r.size (r.number labels origin) ++
    bytes.drop (r.site + 1 + r.size)

variable {labels : Labels} {origin : Option Address} {r : Request}

/-- A request has the bytes of its number, if that fits and nothing wraps around. -/
theorem operand_eq (hsite : r.site < 0x4000000000000000)
    (hlabels : ∀ name place, labels.get? name = some place → place < 0x4000000000000000) :
    r.operand labels origin =
      match r.numberFault? labels origin with
      | some fault => .error fault
      | none => .ok (littleEndian r.size (r.number labels origin)) := by
  obtain ⟨⟨label, jump⟩, site⟩ := r
  replace hsite : site < 0x4000000000000000 := hsite
  rw [operand]
  cases jump with
  | absolute =>
    cases origin with
    | none => rfl
    | some start =>
      rw [Target.ofLabel, Target.ofAddress, numberFault?]
      cases hplace : labels.get? label with
      | none => rfl
      | some place =>
        have hsmall := hlabels label place hplace
        have hstart := start.toNat_lt
        have hself : signed64 (start.toNat + place) = start.toNat + place :=
          signed64_eq_self (by omega) (by omega)
        have hnumber : number labels (some start) ⟨⟨label, .absolute⟩, site⟩ =
            start.toNat + place := by
          simp [number, hplace]
        rw [hnumber]
        dsimp only
        rw [hself, Target.ofValue]
        by_cases hfits : start.toNat + place ≤ 65535
        · obtain ⟨a, ha⟩ : ∃ a, address? (start.toNat + place) = some a := ⟨_, if_pos (by omega)⟩
          rw [ha, if_pos hfits, ← (address?_eq_some ha).1]
          rfl
        · have hnone : address? (start.toNat + place) = none := if_neg (by omega)
          rw [hnone, if_neg hfits]
          rfl
  | relative =>
    rw [Target.ofLabel, Target.ofPosition, numberFault?]
    cases hplace : labels.get? label with
    | none => rfl
    | some place =>
      have hsmall := hlabels label place hplace
      have hself : signed64 (place - (site + 2)) = place - (site + 2) :=
        signed64_eq_self (by omega) (by omega)
      have hnumber : number labels origin ⟨⟨label, .relative⟩, site⟩ = place - (site + 2) := by
        simp [number, hplace]
      rw [hnumber]
      change Target.operand label site (.position place) = _
      rw [Target.operand, hself, displacement?]
      dsimp only
      by_cases hfits : -128 ≤ (place - (site + 2) : Int) ∧ (place - (site + 2) : Int) ≤ 127
      · rw [if_pos hfits, if_pos hfits]
        rfl
      · rw [if_neg hfits, if_neg hfits]

/-- A request is written if it passes its checks. -/
theorem write_eq (hsite : r.site < 0x4000000000000000)
    (hlabels : ∀ name place, labels.get? name = some place → place < 0x4000000000000000)
    (code : CodeBuffer) :
    r.write labels origin code =
      match r.fault? labels origin code.size with
      | some fault => .error fault
      | none => .ok (.ofList (r.put labels origin code.toList)) := by
  rw [write, operand_eq hsite hlabels, fault?]
  cases r.numberFault? labels origin with
  | some fault => rfl
  | none =>
    change code.patch (r.site + 1) (littleEndian r.size (r.number labels origin)) = _
    by_cases hinside : r.site + 1 + r.size ≤ code.size
    · cases hpatch : code.patch (r.site + 1) (littleEndian r.size (r.number labels origin)) with
      | error fault =>
        rw [CodeBuffer.patch_eq_ok (by rwa [length_littleEndian])] at hpatch
        cases hpatch
      | ok code' =>
        have hbytes := CodeBuffer.toList_patch hpatch
        rw [length_littleEndian] at hbytes
        rw [if_pos hinside]
        exact congrArg Except.ok (CodeBuffer.toList_injective hbytes)
    · rw [CodeBuffer.patch, length_littleEndian, if_neg hinside, if_neg hinside]
      rfl

theorem length_put {bytes : List UInt8} (h : r.fault? labels origin bytes.length = none) :
    (r.put labels origin bytes).length = bytes.length := by
  obtain ⟨-, hinside⟩ := Option.or_eq_none_iff.mp h
  split at hinside
  · rw [put, List.length_append, List.length_append, length_littleEndian, List.length_take,
      List.length_drop]
    omega
  · cases hinside

/-! ### Many requests -/

theorem length_foldl_put {bytes : List UInt8} {requests : List Request}
    (h : ∀ r ∈ requests, r.fault? labels origin bytes.length = none) :
    (requests.foldl (put labels origin) bytes).length = bytes.length := by
  induction requests generalizing bytes with
  | nil => rfl
  | cons r rest ih =>
    have hlength := length_put (h r List.mem_cons_self)
    rw [List.foldl_cons, ih, hlength]
    intro r' hr'
    rw [hlength]
    exact h r' (List.mem_cons_of_mem _ hr')

section

variable {code : CodeBuffer} {requests : List Request}
  (hlabels : ∀ name place, labels.get? name = some place → place < 0x4000000000000000)

include hlabels

/-- Requests that pass their checks are all written. -/
theorem writeUntil_of_forall (hsites : ∀ r ∈ requests, r.site < 0x4000000000000000)
    (h : ∀ r ∈ requests, r.fault? labels origin code.size = none) :
    writeUntil labels origin code requests =
      (.ofList (requests.foldl (put labels origin) code.toList), none) := by
  induction requests generalizing code with
  | nil => rfl
  | cons r rest ih =>
    have hr := h r List.mem_cons_self
    have hsize : (CodeBuffer.ofList (r.put labels origin code.toList)).size = code.size :=
      length_put hr
    rw [writeUntil, write_eq (hsites r List.mem_cons_self) hlabels, hr]
    dsimp only
    rw [ih (fun r' hr' => hsites r' (List.mem_cons_of_mem _ hr')) fun r' hr' => ?_]
    · rfl
    · rw [hsize]
      exact h r' (List.mem_cons_of_mem _ hr')

/-- The first request that fails a check stops the writing. -/
theorem writeUntil_of_first {later : List Request} {fault : Fault}
    (hsites : ∀ r' ∈ requests ++ r :: later, r'.site < 0x4000000000000000)
    (h : ∀ r' ∈ requests, r'.fault? labels origin code.size = none)
    (hr : r.fault? labels origin code.size = some fault) :
    writeUntil labels origin code (requests ++ r :: later) =
      (.ofList (requests.foldl (put labels origin) code.toList), some fault) := by
  have hsize : (CodeBuffer.ofList (requests.foldl (put labels origin) code.toList)).size =
      code.size :=
    length_foldl_put h
  have hwritten := writeUntil_of_forall hlabels
    (fun r' hr' => hsites r' (List.mem_append_left _ hr')) h
  have hsite : r.site < 0x4000000000000000 :=
    hsites r (List.mem_append_right _ List.mem_cons_self)
  rw [writeUntil_append, hwritten]
  dsimp only
  rw [writeUntil, write_eq hsite hlabels, hsize, hr]

end

end Request

/-! ## Outcomes -/

namespace References

open Request (inOrder put)

/-- What becomes of requests that are recorded in any order.  If all of them pass their checks, all
are written and counted.  If not, the first one that fails a check decides the fault, and those
before it are written. -/
theorem resolve_by_checks (recorded : List Request) (labels : Labels) (origin : Option Address)
    (code : CodeBuffer) (hsites : ∀ r ∈ recorded, r.site < 0x4000000000000000)
    (hlabels : ∀ name place, labels.get? name = some place → place < 0x4000000000000000) :
    let result := (recordAll recorded).resolve labels origin code
    result.code.size = code.size ∧
    (result.outcome = .ok recorded.length ↔
      ∀ r ∈ recorded, r.fault? labels origin code.size = none) ∧
    ((∀ r ∈ recorded, r.fault? labels origin code.size = none) →
      result.code.toList = (inOrder recorded).foldl (put labels origin) code.toList) ∧
    ((¬ ∀ r ∈ recorded, r.fault? labels origin code.size = none) →
      ∃ written r later fault, inOrder recorded = written ++ r :: later ∧
        (∀ r' ∈ written, r'.fault? labels origin code.size = none) ∧
        r.fault? labels origin code.size = some fault ∧
        result.outcome = .error fault ∧
        result.code.toList = written.foldl (put labels origin) code.toList) := by
  intro result
  have hmem : ∀ r, r ∈ inOrder recorded ↔ r ∈ recorded := fun r =>
    (Request.perm_inOrder recorded).mem_iff
  have hsites' : ∀ r ∈ inOrder recorded, r.site < 0x4000000000000000 := fun r hr =>
    hsites r ((hmem r).mp hr)
  have hresolve := resolve_eq_writeUntil (filled_recordAll recorded) labels origin code
  rw [requests_recordAll, (Request.perm_inOrder recorded).length_eq] at hresolve
  by_cases hall : ∀ r ∈ recorded, r.fault? labels origin code.size = none
  · have hall' : ∀ r ∈ inOrder recorded, r.fault? labels origin code.size = none := fun r hr =>
      hall r ((hmem r).mp hr)
    rw [Request.writeUntil_of_forall hlabels hsites' hall'] at hresolve
    obtain ⟨hcode, houtcome⟩ := Prod.mk.inj hresolve
    refine ⟨?_, iff_of_true houtcome hall, fun _ => congrArg CodeBuffer.toList hcode,
      fun h => absurd hall h⟩
    exact (congrArg CodeBuffer.size hcode).trans (Request.length_foldl_put hall')
  · obtain ⟨r, hfind⟩ : ∃ r, (inOrder recorded).find?
        (fun r => (r.fault? labels origin code.size).isSome) = some r := by
      rw [← Option.isSome_iff_exists, List.find?_isSome]
      simpa [hmem, Option.isSome_iff_ne_none] using hall
    obtain ⟨hr, written, later, hsplit, hwritten⟩ := List.find?_eq_some_iff_append.mp hfind
    obtain ⟨fault, hfault⟩ := Option.isSome_iff_exists.mp hr
    have hpass : ∀ r' ∈ written, r'.fault? labels origin code.size = none := by
      intro r' hr'
      simpa using hwritten r' hr'
    rw [hsplit, Request.writeUntil_of_first hlabels (hsplit ▸ hsites') hpass hfault] at hresolve
    obtain ⟨hcode, houtcome⟩ := Prod.mk.inj hresolve
    have hfails : result.outcome ≠ .ok recorded.length := by
      rw [houtcome]
      exact nofun
    refine ⟨?_, iff_of_false hfails hall, fun h => absurd h hall, fun _ => ?_⟩
    · exact (congrArg CodeBuffer.size hcode).trans (Request.length_foldl_put hpass)
    · exact ⟨written, r, later, fault, hsplit, hpass, hfault, houtcome,
        congrArg CodeBuffer.toList hcode⟩

/-- References that are recorded out of order, of which two want the same byte and one wants an
address that is too large. -/
def tangledRequests : List Request :=
  [⟨⟨"b".toList, .relative⟩, 1⟩, ⟨⟨"z".toList, .absolute⟩, 6⟩, ⟨⟨"a".toList, .absolute⟩, 3⟩,
    ⟨⟨"a".toList, .absolute⟩, 0⟩]

def tangledLabels : Labels :=
  ((Dictionary.empty.insert "z".toList 40000).insert "a".toList 4).insert "b".toList 2

/-- The two addresses of `a` are written before the one of `z` is found to be too large, and `b` is
not reached. -/
theorem tangledRequests_by_checks :
    let code := CodeBuffer.ofList [0xC3, 0, 0, 0xCD, 0, 0, 0xC3, 0, 0]
    let result := (recordAll tangledRequests).resolve tangledLabels (some 0x8000) code
    (∀ r ∈ tangledRequests, r.site < 0x4000000000000000) ∧
    result.outcome = .error (.valueOutOfRange 72768 16) ∧
    result.code.toList = [0xC3, 0x04, 0x80, 0xCD, 0x04, 0x80, 0xC3, 0, 0] ∧
    ∃ written r later fault, inOrder tangledRequests = written ++ r :: later ∧
      (∀ r' ∈ written, r'.fault? tangledLabels (some 0x8000) code.size = none) ∧
      r.fault? tangledLabels (some 0x8000) code.size = some fault ∧
      result.outcome = .error fault ∧
      result.code.toList = written.foldl (put tangledLabels (some 0x8000)) code.toList := by
  intro code result
  have hsites : ∀ r ∈ tangledRequests, r.site < 0x4000000000000000 := by decide
  have hlabels : ∀ name place, tangledLabels.get? name = some place →
      place < 0x4000000000000000 := by
    have hentries : ∀ e ∈ tangledLabels.entries, e.2 < 0x4000000000000000 := by decide
    intro name place hplace
    exact hentries _ (Dictionary.mem_entries.mpr hplace)
  have hfails : ¬ ∀ r ∈ tangledRequests, r.fault? tangledLabels (some 0x8000) code.size = none := by
    decide
  obtain ⟨-, -, -, hfirst⟩ :=
    resolve_by_checks tangledRequests tangledLabels (some 0x8000) code hsites hlabels
  exact ⟨hsites, by decide, by decide, hfirst hfails⟩

end References

end Z80
