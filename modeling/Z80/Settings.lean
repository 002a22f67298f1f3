import Z80.Json.Reader
import Z80.Session

/-!
# Settings as JSON

Settings are an object with the members `origin` and `allow_label_redefinition`, or an array of
their values in this order.  What is not given has its default.
-/

namespace Z80.Settings

/-- The settings that have been given. -/
structure Draft where
  origin : Option (Option Address) := none
  allowRedefinition : Option Bool := none

def Draft.complete (d : Draft) : Settings where
  origin := d.origin.getD none
  allowRedefinition := d.allowRedefinition.getD true

/-- An origin is an address in decimal, or absent. -/
def originOf? : Json → Option (Option Address)
  | .null => some none
  | .number digits =>
    (Numeral.natural? 10 digits).bind fun n => (address? n).map some
  | _ => none

def flagOf? : Json → Option Bool
  | .bool b => some b
  | _ => none

/-- Takes a member.  Those of the settings may be given once; others do not count. -/
def Draft.member? (d : Draft) (member : Text × Json) : Option Draft := do
  let name ← Json.unescape? member.1
  if name = "origin".toList then
    if d.origin.isSome then none
    else return { d with origin := some (← originOf? member.2) }
  else if name = "allow_label_redefinition".toList then
    if d.allowRedefinition.isSome then none
    else return { d with allowRedefinition := some (← flagOf? member.2) }
  else return d

def ofJson? : Json → Option Settings
  | .object members => (members.foldlM Draft.member? {}).map Draft.complete
  | .array [] => some {}
  | .array [origin] => (originOf? origin).map fun o => { origin := o }
  | .array [origin, flag] => do
    return { origin := ← originOf? origin, allowRedefinition := ← flagOf? flag }
  | _ => none

/-- The settings that a text gives. -/
def read? (t : Text) : Option Settings := (Json.read? t).bind ofJson?

end Z80.Settings
