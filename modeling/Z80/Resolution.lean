import Z80.CodeBuffer
import Z80.Dictionary
import Z80.Encoding
import Z80.Event

/-!
# Resolution of labels

References to labels are collected while the code grows.  Once every label has its place, their
values are written into the code: first the addresses, then the distances, each label by label in
the order of the names, and for one label in the order in which it was referred to.
-/

namespace Z80

/-- The positions of the labels declared so far. -/
abbrev Labels := Dictionary Nat

/-- The sites that refer to each label.  A site is the position of the referring instruction. -/
structure References where
  absolute : Dictionary (List Nat)
  relative : Dictionary (List Nat)
  deriving DecidableEq

/-- What becomes of the code: its bytes afterwards, which hold all that was written before a fault,
the labels written, and the number of sites or the fault. -/
structure Resolution where
  code : CodeBuffer
  events : List Event
  outcome : Except Fault Nat

/-- What a label stands for in a jump. -/
inductive Target where
  | address (value : Address)
  | position (value : Nat)
  deriving DecidableEq

/-- A number as 64 bits hold it in two's complement. -/
def signed64 (n : Int) : Int := n.bmod 0x10000000000000000

/-! ## Targets -/

namespace Target

/-- A number as the target of a jump that holds an address. -/
def ofValue (value : Int) : Except Fault Target :=
  match address? value with
  | some a => .ok (.address a)
  | none => .error (.valueOutOfRange value 16)

/-- The address of a label is its position after the origin of the code. -/
def ofAddress (labels : Labels) (origin : Option Address) (label : Text) : Except Fault Target :=
  match origin with
  | none => .error (.missingOrigin label)
  | some origin =>
    match labels.get? label with
    | none => .error (.unresolvedLabel label)
    | some place => ofValue (signed64 (origin.toNat + place))

def ofPosition (labels : Labels) (label : Text) : Except Fault Target :=
  match labels.get? label with
  | some place => .ok (.position place)
  | none => .error (.unresolvedLabel label)

/-- What a jump to the label writes. -/
def ofLabel (labels : Labels) (origin : Option Address) : Reference → Except Fault Target
  | ⟨label, .absolute⟩ => ofAddress labels origin label
  | ⟨label, .relative⟩ => ofPosition labels label

/-- The bytes of a target in the instruction at a site.  A distance counts from the end of the
instruction, which has two bytes. -/
def operand (label : Text) (site : Nat) : Target → Except Fault (List UInt8)
  | address value => .ok (littleEndian 2 value.toNat)
  | position value =>
    let distance := signed64 (value - (site + 2))
    match displacement? distance with
    | some b => .ok [b]
    | none => .error (.offsetOutOfRange label distance)

def event (label : Text) : Target → Event
  | address value => .absolutePatch label value
  | position value => .relativePatch label value

end Target

/-! ## References -/

namespace References

def empty : References := ⟨.empty, .empty⟩

/-- Adds a site after those that refer to the label in the same way. -/
def addSite (sites : Dictionary (List Nat)) (label : Text) (site : Nat) : Dictionary (List Nat) :=
  sites.insert label ((sites.get? label).getD [] ++ [site])

def record (refs : References) (site : Nat) : Reference → References
  | ⟨label, .absolute⟩ => { refs with absolute := addSite refs.absolute label site }
  | ⟨label, .relative⟩ => { refs with relative := addSite refs.relative label site }

/-- The references with their sites, in the order in which they are resolved. -/
def toList (refs : References) : List (Reference × List Nat) :=
  refs.absolute.entries.map (fun e => (⟨e.1, .absolute⟩, e.2)) ++
    refs.relative.entries.map fun e => (⟨e.1, .relative⟩, e.2)

/-- The number of sites. -/
def size (refs : References) : Nat := (refs.toList.flatMap (·.2)).length

def isEmpty (refs : References) : Bool := refs.size == 0

/-- Writes a target at each site, after an opcode of one byte, up to the first fault. -/
def writeSites (label : Text) (target : Target) (code : CodeBuffer) :
    List Nat → CodeBuffer × Option Fault
  | [] => (code, none)
  | site :: rest =>
    match target.operand label site with
    | .error fault => (code, some fault)
    | .ok bytes =>
      match code.patch (site + 1) bytes with
      | .error fault => (code, some fault)
      | .ok code => writeSites label target code rest

/-- Resolves references one after the other, where `patched` sites have been written before. -/
def resolveFrom (labels : Labels) (origin : Option Address) (patched : Nat) (code : CodeBuffer) :
    List (Reference × List Nat) → Resolution
  | [] => ⟨code, [], .ok patched⟩
  | (reference, sites) :: rest =>
    match Target.ofLabel labels origin reference with
    | .error fault => ⟨code, [], .error fault⟩
    | .ok target =>
      match writeSites reference.label target code sites with
      | (code, some fault) => ⟨code, [], .error fault⟩
      | (code, none) =>
        let after := resolveFrom labels origin (patched + sites.length) code rest
        { after with events := target.event reference.label :: after.events }

/-- Writes every reference into the code. -/
def resolve (refs : References) (labels : Labels) (origin : Option Address) (code : CodeBuffer) :
    Resolution :=
  resolveFrom labels origin 0 code refs.toList

end References

end Z80
