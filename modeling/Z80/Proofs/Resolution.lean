import Z80.Resolution
import Z80.Proofs.CodeBuffer
import Z80.Proofs.Computation
import Z80.Proofs.Word

/-!
# Resolution as a list of requests

References are kept by label, and each label has several sites.  Here they are one list of requests,
in the order in which they are written, and resolution writes the requests of that list one after
the other up to the first fault.  Each writes its own bytes and leaves the others alone.
-/

namespace Z80

/-! ## Numbers in 64 bits -/

theorem signed64_eq_self {n : Int} (hlo : -0x8000000000000000 ≤ n) (hhi : n < 0x8000000000000000) :
    signed64 n = n :=
  Int.bmod_eq_of_le (by omega) (by omega)

/-- A sum that does not wrap around is negative in 64 bits if it is too large. -/
theorem signed64_eq_self_of_nonneg {n : Int} (hlo : 0 ≤ n) (hhi : n < 0x10000000000000000)
    (hsigned : 0 ≤ signed64 n) : signed64 n = n := by
  by_cases hsmall : n < 0x8000000000000000
  · exact signed64_eq_self (by omega) hsmall
  · have hmod : n % (0x10000000000000000 : Nat) = n := Int.emod_eq_of_lt hlo (by omega)
    have hwrap : signed64 n = n - (0x10000000000000000 : Nat) := by
      rw [signed64, Int.bmod_def, hmod, if_neg (by omega)]
    omega

/-! ## Dictionaries by their entries -/

/-- Texts that do not come before one another are in order. -/
theorem Text.not_lt_trans {s t u : Text} (hst : ¬ t < s) (htu : ¬ u < t) : ¬ u < s := by
  intro hlt
  by_cases hne : t = s
  · exact htu (hne ▸ hlt)
  · exact htu (List.lt_trans hlt (Text.lt_of_not_lt hst hne))

theorem Text.not_lt_of_lt {s t : Text} (h : s < t) : ¬ t < s := fun hlt =>
  List.lt_irrefl _ (List.lt_trans h hlt)

namespace Dictionary

variable {α : Type}

theorem mem_iff_lookup {l : List (Text × α)} (h : l.Pairwise fun a b => a.1 < b.1) {key : Text}
    {value : α} : (key, value) ∈ l ↔ l.lookup key = some value := by
  induction l with
  | nil => simp
  | cons e rest ih =>
    obtain ⟨hfirst, hrest⟩ := List.pairwise_cons.mp h
    rw [lookup_cons_eq_ite, List.mem_cons]
    by_cases hkey : key = e.1
    · have hnot : (key, value) ∉ rest := by
        intro hmem
        have hlt : e.1 < key := hfirst _ hmem
        exact List.lt_irrefl _ (hkey ▸ hlt)
      rw [if_pos hkey, or_iff_left hnot, Option.some_inj]
      constructor
      · rintro rfl
        rfl
      · rintro rfl
        rw [hkey]
    · have hne : (key, value) ≠ e := fun heq => hkey (congrArg Prod.fst heq)
      rw [if_neg hkey, or_iff_right hne, ih hrest]

/-- The entries of a dictionary are what its keys are bound to. -/
@[simp] theorem mem_entries {d : Dictionary α} {key : Text} {value : α} :
    (key, value) ∈ d.entries ↔ d.get? key = some value := mem_iff_lookup d.sorted

theorem filter_of_lt {key : Text} {l : List (Text × α)} (h : ∀ e ∈ l, key < e.1) :
    l.filter (fun e => e.1 ≠ key) = l := by
  refine List.filter_eq_self.mpr fun e he => decide_eq_true ?_
  rintro rfl
  exact List.lt_irrefl _ (h e he)

/-- An entry that is put in its place comes to those with other keys. -/
theorem perm_insertEntry (key : Text) (value : α) {l : List (Text × α)}
    (h : l.Pairwise fun a b => a.1 < b.1) :
    (insertEntry key value l).Perm ((key, value) :: l.filter fun e => e.1 ≠ key) := by
  induction l with
  | nil => exact .refl _
  | cons e rest ih =>
    obtain ⟨hfirst, hrest⟩ := List.pairwise_cons.mp h
    rw [insertEntry]
    split
    · next hlt =>
      rw [filter_of_lt (l := e :: rest)]
      intro e' he'
      rcases List.mem_cons.mp he' with rfl | he'
      · exact hlt
      · exact List.lt_trans hlt (hfirst e' he')
    · split
      · next heq =>
        subst heq
        rw [List.filter_cons_of_neg (by simp), filter_of_lt hfirst]
      · next hne =>
        rw [List.filter_cons_of_pos (by simpa using Ne.symm hne)]
        exact ((ih hrest).cons e).trans (.swap _ _ _)

/-- Entries are the one of a key, if there is one, and those with other keys. -/
theorem perm_lookup (key : Text) {l : List (Text × α)} (h : l.Pairwise fun a b => a.1 < b.1) :
    l.Perm ((l.lookup key).toList.map (Prod.mk key) ++ l.filter fun e => e.1 ≠ key) := by
  induction l with
  | nil => exact .refl _
  | cons e rest ih =>
    obtain ⟨hfirst, hrest⟩ := List.pairwise_cons.mp h
    rw [lookup_cons_eq_ite]
    split
    · next heq =>
      subst heq
      rw [List.filter_cons_of_neg (by simp), filter_of_lt hfirst]
      exact .refl _
    · next hne =>
      rw [List.filter_cons_of_pos (by simpa using Ne.symm hne)]
      exact ((ih hrest).cons e).trans List.perm_middle.symm

end Dictionary

/-! ## Requests -/

/-- A site that waits for a label. -/
structure Request where
  reference : Reference
  site : Nat
  deriving DecidableEq

namespace Request

/-- The number of bytes that are written. -/
def size (r : Request) : Nat := r.reference.jump.width.size

/-- Whether a position is among those that are written.  They follow an opcode of one byte. -/
def Covers (r : Request) (i : Nat) : Prop := r.site + 1 ≤ i ∧ i < r.site + 1 + r.size

/-- The bytes to write. -/
def operand (labels : Labels) (origin : Option Address) (r : Request) :
    Except Fault (List UInt8) := do
  let target ← Target.ofLabel labels origin r.reference
  target.operand r.reference.label r.site

def write (labels : Labels) (origin : Option Address) (code : CodeBuffer) (r : Request) :
    Except Fault CodeBuffer := do
  let bytes ← r.operand labels origin
  code.patch (r.site + 1) bytes

/-- Writes requests one after the other, up to the first fault. -/
def writeAll (labels : Labels) (origin : Option Address) (code : CodeBuffer)
    (requests : List Request) : Except Fault CodeBuffer :=
  requests.foldlM (write labels origin) code

/-- Writes requests one after the other, up to the first fault: the code as it is then, and the
fault. -/
def writeUntil (labels : Labels) (origin : Option Address) (code : CodeBuffer) :
    List Request → CodeBuffer × Option Fault
  | [] => (code, none)
  | r :: rest =>
    match r.write labels origin code with
    | .error fault => (code, some fault)
    | .ok code' => writeUntil labels origin code' rest

section

variable {labels : Labels} {origin : Option Address}

/-- Requests that are all written leave the code that is there at the end. -/
theorem writeAll_eq_writeUntil (code : CodeBuffer) (requests : List Request) :
    writeAll labels origin code requests =
      match writeUntil labels origin code requests with
      | (_, some fault) => .error fault
      | (code', none) => .ok code' := by
  induction requests generalizing code with
  | nil => rfl
  | cons r rest ih =>
    rw [writeAll, List.foldlM_cons, writeUntil]
    cases r.write labels origin code with
    | error fault => rfl
    | ok code' => exact ih code'

theorem writeUntil_append (code : CodeBuffer) (requests requests' : List Request) :
    writeUntil labels origin code (requests ++ requests') =
      match writeUntil labels origin code requests with
      | (code', some fault) => (code', some fault)
      | (code', none) => writeUntil labels origin code' requests' := by
  induction requests generalizing code with
  | nil => rfl
  | cons r rest ih =>
    rw [List.cons_append, writeUntil, writeUntil]
    cases r.write labels origin code with
    | error fault => rfl
    | ok code' => exact ih code'

end

end Request

namespace References

/-- The sites that refer to a label in the same way, if there are any. -/
def group? (refs : References) : Reference → Option (List Nat)
  | ⟨label, .absolute⟩ => refs.absolute.get? label
  | ⟨label, .relative⟩ => refs.relative.get? label

/-- No label is kept without a site. -/
def Filled (refs : References) : Prop := ∀ reference, refs.group? reference ≠ some []

/-- The requests of some references with their sites, in order. -/
def requestsOf (groups : List (Reference × List Nat)) : List Request :=
  groups.flatMap fun g => g.2.map (Request.mk g.1)

def requests (refs : References) : List Request := requestsOf refs.toList

@[simp] theorem mem_toList {refs : References} {reference : Reference} {sites : List Nat} :
    (reference, sites) ∈ refs.toList ↔ refs.group? reference = some sites := by
  obtain ⟨label, jump⟩ := reference
  rw [toList, List.mem_append, List.mem_map, List.mem_map]
  cases jump with
  | absolute =>
    rw [group?, ← Dictionary.mem_entries]
    constructor
    · rintro (⟨e, he, heq⟩ | ⟨e, -, heq⟩)
      · cases heq
        exact he
      · cases heq
    · intro h
      exact .inl ⟨_, h, rfl⟩
  | relative =>
    rw [group?, ← Dictionary.mem_entries]
    constructor
    · rintro (⟨e, -, heq⟩ | ⟨e, he, heq⟩)
      · cases heq
      · cases heq
        exact he
    · intro h
      exact .inr ⟨_, h, rfl⟩

@[simp] theorem group?_record (refs : References) (site : Nat) (reference reference' : Reference) :
    (refs.record site reference).group? reference' =
      if reference' = reference then some ((refs.group? reference).getD [] ++ [site])
      else refs.group? reference' := by
  obtain ⟨label, jump⟩ := reference
  obtain ⟨label', jump'⟩ := reference'
  cases jump <;> cases jump' <;>
    simp only [record, group?, addSite, Dictionary.get?_insert, Reference.mk.injEq, and_true,
      and_false, reduceCtorEq, if_false]

/-- A site joins those of its label, wherever these stand in the list. -/
theorem perm_addSite (sites : Dictionary (List Nat)) (label : Text) (site : Nat) (jump : Jump) :
    (requestsOf ((addSite sites label site).entries.map fun e => (⟨e.1, jump⟩, e.2))).Perm
      (⟨⟨label, jump⟩, site⟩ :: requestsOf (sites.entries.map fun e => (⟨e.1, jump⟩, e.2))) := by
  rw [requestsOf, requestsOf, List.flatMap_map, List.flatMap_map]
  have hafter := (Dictionary.perm_insertEntry label ((sites.get? label).getD [] ++ [site])
    sites.sorted).flatMap_right fun e => e.2.map (Request.mk ⟨e.1, jump⟩)
  have hbefore := (Dictionary.perm_lookup label sites.sorted).flatMap_right fun e =>
    e.2.map (Request.mk ⟨e.1, jump⟩)
  refine hafter.trans (.trans ?_ (hbefore.cons _).symm)
  rw [List.flatMap_cons, List.flatMap_append, List.map_append, Dictionary.get?]
  cases sites.entries.lookup label with
  | none => exact .refl _
  | some old => simp

/-- Recording adds one request. -/
theorem perm_requests_record (refs : References) (site : Nat) (reference : Reference) :
    (refs.record site reference).requests.Perm (⟨reference, site⟩ :: refs.requests) := by
  obtain ⟨label, jump⟩ := reference
  rw [requests, requests, toList, toList, requestsOf, requestsOf, List.flatMap_append,
    List.flatMap_append]
  cases jump with
  | absolute => exact (perm_addSite refs.absolute label site .absolute).append_right _
  | relative =>
    exact ((perm_addSite refs.relative label site .relative).append_left _).trans List.perm_middle

theorem filled_empty : empty.Filled := by
  rintro ⟨label, jump⟩
  cases jump <;> simp [empty, group?]

theorem Filled.record {refs : References} (h : refs.Filled) (site : Nat) (reference : Reference) :
    (refs.record site reference).Filled := by
  intro reference'
  rw [group?_record]
  split
  · simp
  · exact h reference'

/-! ### Resolving -/

variable {labels : Labels} {origin : Option Address}

/-- The sites of one label are written like its requests. -/
theorem writeUntil_sites {reference : Reference} {target : Target}
    (htarget : Target.ofLabel labels origin reference = .ok target) (code : CodeBuffer)
    (sites : List Nat) :
    Request.writeUntil labels origin code (sites.map (Request.mk reference)) =
      writeSites reference.label target code sites := by
  induction sites generalizing code with
  | nil => rfl
  | cons site rest ih =>
    have hoperand : (Request.mk reference site).operand labels origin =
        target.operand reference.label site := by
      rw [Request.operand, htarget]
      rfl
    rw [List.map_cons, Request.writeUntil, Request.write, hoperand, writeSites]
    cases target.operand reference.label site with
    | error fault => rfl
    | ok bytes =>
      change (match code.patch (site + 1) bytes with | .error fault => _ | .ok code' => _) = _
      dsimp only
      cases code.patch (site + 1) bytes with
      | error fault => rfl
      | ok code' => exact ih code'

/-- A label that has no value stops its first site. -/
theorem writeUntil_of_target_error {reference : Reference} {fault : Fault}
    (htarget : Target.ofLabel labels origin reference = .error fault) (code : CodeBuffer)
    {sites : List Nat} (hsites : sites ≠ []) :
    Request.writeUntil labels origin code (sites.map (Request.mk reference)) =
      (code, some fault) := by
  cases sites with
  | nil => exact absurd rfl hsites
  | cons site rest =>
    rw [List.map_cons, Request.writeUntil, Request.write, Request.operand, htarget]
    rfl

/-- Resolution counts the requests that it writes, if none of them is at fault. -/
theorem resolveFrom_eq_writeUntil (labels : Labels) (origin : Option Address) (patched : Nat)
    (code : CodeBuffer) {groups : List (Reference × List Nat)} (hfilled : ∀ g ∈ groups, g.2 ≠ []) :
    ((resolveFrom labels origin patched code groups).code,
        (resolveFrom labels origin patched code groups).outcome) =
      match Request.writeUntil labels origin code (requestsOf groups) with
      | (code', some fault) => (code', .error fault)
      | (code', none) => (code', .ok (patched + (requestsOf groups).length)) := by
  induction groups generalizing patched code with
  | nil => rfl
  | cons g rest ih =>
    obtain ⟨reference, sites⟩ := g
    have hsites : sites ≠ [] := hfilled _ List.mem_cons_self
    have hrest : ∀ g ∈ rest, g.2 ≠ [] := fun g hg => hfilled g (List.mem_cons_of_mem _ hg)
    have happend : requestsOf ((reference, sites) :: rest) =
        sites.map (Request.mk reference) ++ requestsOf rest := List.flatMap_cons
    rw [happend, Request.writeUntil_append, resolveFrom]
    cases htarget : Target.ofLabel labels origin reference with
    | error fault => rw [writeUntil_of_target_error htarget code hsites]
    | ok target =>
      rw [writeUntil_sites htarget]
      dsimp only
      rcases writeSites reference.label target code sites with ⟨code', fault?⟩
      cases fault? with
      | some fault => rfl
      | none =>
        have hcount : patched + (sites.map (Request.mk reference) ++ requestsOf rest).length =
            patched + sites.length + (requestsOf rest).length := by
          rw [List.length_append, List.length_map, Nat.add_assoc]
        rw [hcount]
        exact ih (patched + sites.length) code' hrest

theorem resolve_eq_writeUntil {refs : References} (h : refs.Filled) (labels : Labels)
    (origin : Option Address) (code : CodeBuffer) :
    ((refs.resolve labels origin code).code, (refs.resolve labels origin code).outcome) =
      match Request.writeUntil labels origin code refs.requests with
      | (code', some fault) => (code', .error fault)
      | (code', none) => (code', .ok refs.requests.length) := by
  have hfilled : ∀ g ∈ refs.toList, g.2 ≠ [] := by
    intro g hg hnil
    exact h g.1 (hnil ▸ mem_toList.mp hg)
  have hfrom := resolveFrom_eq_writeUntil labels origin 0 code hfilled
  rwa [Nat.zero_add] at hfrom

/-- Resolution writes the requests in order, up to the first fault. -/
theorem writeAll_requests {refs : References} (h : refs.Filled) (code : CodeBuffer) :
    Request.writeAll labels origin code refs.requests =
      (refs.resolve labels origin code).outcome.map fun _ =>
        (refs.resolve labels origin code).code := by
  have hresolve := resolve_eq_writeUntil h labels origin code
  rw [Request.writeAll_eq_writeUntil]
  rcases hwritten : Request.writeUntil labels origin code refs.requests with ⟨code', fault?⟩
  rw [hwritten] at hresolve
  cases fault? with
  | some fault =>
    obtain ⟨-, houtcome⟩ := Prod.mk.inj hresolve
    rw [houtcome]
    rfl
  | none =>
    obtain ⟨hcode, houtcome⟩ := Prod.mk.inj hresolve
    rw [houtcome, hcode]
    rfl

end References

/-! ## What a request writes -/

namespace Target

theorem ofValue_eq_ok {value : Int} {target : Target} (h : ofValue value = .ok target) :
    ∃ a, address? value = some a ∧ target = .address a := by
  rw [ofValue] at h
  split at h
  · next a ha =>
    cases h
    exact ⟨a, ha, rfl⟩
  · cases h

theorem ofAddress_eq_ok {labels : Labels} {origin : Option Address} {label : Text} {target : Target}
    (h : ofAddress labels origin label = .ok target) :
    ∃ start place, origin = some start ∧ labels.get? label = some place ∧
      ofValue (signed64 (start.toNat + place)) = .ok target := by
  cases origin with
  | none => cases h
  | some start =>
    rw [ofAddress] at h
    split at h
    · cases h
    · next place hplace => exact ⟨start, place, rfl, hplace, h⟩

end Target

namespace Request

variable {labels : Labels} {origin : Option Address}

/-- An address is written as the word of the origin and the position of the label. -/
theorem operand_absolute {label : Text} {site : Nat} {bytes : List UInt8}
    (h : (Request.mk ⟨label, .absolute⟩ site).operand labels origin = .ok bytes) :
    ∃ (start a : Address) (place : Nat), origin = some start ∧ labels.get? label = some place ∧
      address? (signed64 (start.toNat + place)) = some a ∧ bytes = littleEndian 2 a.toNat := by
  obtain ⟨target, htarget, hbytes⟩ := bind_eq_ok.mp h
  obtain ⟨start, place, rfl, hplace, hvalue⟩ := Target.ofAddress_eq_ok htarget
  obtain ⟨a, ha, rfl⟩ := Target.ofValue_eq_ok hvalue
  cases hbytes
  exact ⟨start, a, place, rfl, hplace, ha, rfl⟩

/-- A distance is written as one byte, counted from the end of an instruction of two bytes. -/
theorem operand_relative {label : Text} {site : Nat} {bytes : List UInt8}
    (h : (Request.mk ⟨label, .relative⟩ site).operand labels origin = .ok bytes) :
    ∃ (place : Nat) (b : UInt8), labels.get? label = some place ∧
      displacement? (signed64 (place - (site + 2))) = some b ∧ bytes = [b] := by
  obtain ⟨target, htarget, hbytes⟩ := bind_eq_ok.mp h
  rw [Target.ofLabel, Target.ofPosition] at htarget
  split at htarget
  · next place hplace =>
    cases htarget
    rw [Target.operand] at hbytes
    dsimp only at hbytes
    split at hbytes
    · next b hb =>
      cases hbytes
      exact ⟨place, b, hplace, hb, rfl⟩
    · cases hbytes
  · cases htarget

theorem length_operand {r : Request} {bytes : List UInt8}
    (h : r.operand labels origin = .ok bytes) :
    bytes.length = r.size := by
  obtain ⟨⟨label, jump⟩, site⟩ := r
  cases jump with
  | absolute =>
    obtain ⟨_, _, _, _, _, _, rfl⟩ := operand_absolute h
    exact length_littleEndian 2 _
  | relative =>
    obtain ⟨_, _, _, _, rfl⟩ := operand_relative h
    rfl

/-! ### Many requests -/

variable {code code' : CodeBuffer} {requests : List Request}

theorem writeAll_cons_eq_ok {r : Request}
    (h : writeAll labels origin code (r :: requests) = .ok code') :
    ∃ bytes middle, r.operand labels origin = .ok bytes ∧
      code.patch (r.site + 1) bytes = .ok middle ∧
      writeAll labels origin middle requests = .ok code' := by
  rw [writeAll, List.foldlM_cons] at h
  obtain ⟨middle, hwrite, hrest⟩ := bind_eq_ok.mp h
  obtain ⟨bytes, hbytes, hpatch⟩ := bind_eq_ok.mp hwrite
  exact ⟨bytes, middle, hbytes, hpatch, hrest⟩

theorem size_writeAll (h : writeAll labels origin code requests = .ok code') :
    code'.size = code.size := by
  induction requests generalizing code with
  | nil =>
    cases h
    rfl
  | cons r rest ih =>
    obtain ⟨bytes, middle, -, hpatch, hrest⟩ := writeAll_cons_eq_ok h
    rw [ih hrest, CodeBuffer.size_patch hpatch]

/-- A byte that no request covers stays as it is. -/
theorem getElem?_writeAll_of_not_covers (h : writeAll labels origin code requests = .ok code')
    {i : Nat} (hi : ∀ r ∈ requests, ¬ r.Covers i) : code'.toList[i]? = code.toList[i]? := by
  induction requests generalizing code with
  | nil =>
    cases h
    rfl
  | cons r rest ih =>
    obtain ⟨bytes, middle, hbytes, hpatch, hrest⟩ := writeAll_cons_eq_ok h
    have hout : ¬ (r.site + 1 ≤ i ∧ i < r.site + 1 + bytes.length) := by
      rw [length_operand hbytes]
      exact hi r List.mem_cons_self
    rw [ih hrest fun r' hr' => hi r' (List.mem_cons_of_mem _ hr'),
      CodeBuffer.getElem?_patch hpatch, if_neg hout]

theorem exists_operand_of_writeAll (h : writeAll labels origin code requests = .ok code')
    {r : Request} (hr : r ∈ requests) : ∃ bytes, r.operand labels origin = .ok bytes := by
  induction requests generalizing code with
  | nil => cases hr
  | cons r' rest ih =>
    obtain ⟨bytes, middle, hbytes, -, hrest⟩ := writeAll_cons_eq_ok h
    rcases List.mem_cons.mp hr with rfl | hr
    · exact ⟨bytes, hbytes⟩
    · exact ih hrest hr

/-- A byte that one request covers, and no other, is the byte which that request writes. -/
theorem getElem?_writeAll_of_covers (h : writeAll labels origin code requests = .ok code')
    {r : Request} (hr : r ∈ requests) {bytes : List UInt8}
    (hbytes : r.operand labels origin = .ok bytes) {i : Nat} (hi : r.Covers i)
    (honly : ∀ r' ∈ requests, r'.Covers i → r' = r) :
    code'.toList[i]? = bytes[i - (r.site + 1)]? := by
  induction requests generalizing code with
  | nil => cases hr
  | cons r' rest ih =>
    obtain ⟨bytes', middle, hbytes', hpatch, hrest⟩ := writeAll_cons_eq_ok h
    by_cases hlater : r ∈ rest
    · exact ih hrest hlater fun r'' hr'' => honly r'' (List.mem_cons_of_mem _ hr'')
    · have hfirst : r = r' := (List.mem_cons.mp hr).resolve_right hlater
      subst hfirst
      rw [hbytes] at hbytes'
      cases hbytes'
      have hclear : ∀ r'' ∈ rest, ¬ r''.Covers i := by
        intro r'' hr'' hcov
        exact hlater (honly r'' (List.mem_cons_of_mem _ hr'') hcov ▸ hr'')
      have hin : r.site + 1 ≤ i ∧ i < r.site + 1 + bytes.length := by
        rw [length_operand hbytes]
        exact hi
      rw [getElem?_writeAll_of_not_covers hrest hclear,
        CodeBuffer.getElem?_patch hpatch, if_pos hin]

/-- If every request lies inside the code, only the value of a label can be at fault. -/
theorem exists_fault_of_writeAll {fault : Fault}
    (h : writeAll labels origin code requests = .error fault)
    (hin : ∀ r ∈ requests, r.site + 1 + r.size ≤ code.size) :
    ∃ r ∈ requests, r.operand labels origin = .error fault := by
  induction requests generalizing code with
  | nil => cases h
  | cons r rest ih =>
    rw [writeAll, List.foldlM_cons, write] at h
    cases hbytes : r.operand labels origin with
    | error fault' =>
      rw [hbytes] at h
      cases h
      exact ⟨r, List.mem_cons_self, hbytes⟩
    | ok bytes =>
      have hle : r.site + 1 + bytes.length ≤ code.size := by
        rw [length_operand hbytes]
        exact hin r List.mem_cons_self
      have hpatch := CodeBuffer.patch_eq_ok hle
      rw [hbytes] at h
      change (code.patch (r.site + 1) bytes >>= _) = _ at h
      rw [hpatch] at h
      have hrest : ∀ r' ∈ rest, r'.site + 1 + r'.size ≤
          (CodeBuffer.mk (CodeBuffer.overwrite code.data (r.site + 1) bytes)).size := by
        intro r' hr'
        rw [CodeBuffer.size_patch hpatch]
        exact hin r' (List.mem_cons_of_mem _ hr')
      obtain ⟨r', hr', hfault⟩ := ih h hrest
      exact ⟨r', List.mem_cons_of_mem _ hr', hfault⟩

end Request

end Z80
