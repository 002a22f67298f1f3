import Mathlib.Data.List.MinMax
import Z80.Proofs.Line
import Z80.Proofs.LineByLine

/-!
# Variables and their values

Lines define variables, and a variable has the value that it was given last.  A text comes apart in
one way: at a dollar sign the longest name that stands there is a piece, and any other character is
a piece by itself.  Substitution puts values in the place of names, piece by piece.  What the pieces
are is a matter of the names alone.  So a value that was put in is not looked at again, and the
order in which the variables are held does not count.
-/

namespace Z80

open Text (Trimmed trim isBlank)

/-! ## Definitions -/

namespace Variables

/-- A dollar sign and at least one more character, none of them blank. -/
structure IsName (t : Text) : Prop where
  head : t.head? = some '$'
  length : 1 < t.length
  no_blank : ∀ c ∈ t, isBlank c = false

/-- A text that is not empty and has no blanks around it. -/
structure IsValue (t : Text) : Prop where
  ne_nil : t ≠ []
  trimmed : Trimmed t

def WellFormed (vars : Variables) : Prop :=
  ∀ name value, vars.get? name = some value → IsName name ∧ IsValue value

/-- The variable that a line defines, given what was read. -/
def definition? : Except Fault Line → Option (Text × Text)
  | .ok (.binding name value) => some (name, value)
  | _ => none

/-- The variables after a line.  A line that is refused defines none. -/
def after (vars : Variables) (raw : Text) : Variables :=
  match Line.read vars raw with
  | .ok line => line.define vars
  | .error _ => vars

/-- Reads lines one after another: what each says, and the variables after them. -/
def feed (vars : Variables) : List Text → List (Except Fault Line) × Variables
  | [] => ([], vars)
  | raw :: rest =>
      (Line.read vars raw :: ((vars.after raw).feed rest).1, ((vars.after raw).feed rest).2)

end Variables

namespace Line

variable {vars : Variables} {raw name value : Text}

theorem readVariable_eq_ok {rest : Text}
    (h : readVariable ('$' :: rest) = .ok (.binding name value)) :
    Variables.IsName name ∧ Variables.IsValue value := by
  obtain ⟨tail, htext, hvalue, hword, hblank⟩ := Text.exists_eq_word_append ('$' :: rest)
  rw [readVariable] at h
  generalize Text.splitHead ('$' :: rest) = parts at h htext hvalue hword
  obtain ⟨word, operand⟩ := parts
  dsimp only at h htext hvalue hword
  split at h
  · cases h
  · next hlength =>
    split at h
    · cases h
    · next hempty =>
      cases h
      refine ⟨?_, fun hnil => hempty (List.isEmpty_iff.mpr hnil), ?_⟩
      · cases name with
        | nil =>
          -- the dollar sign would be the blank after an empty word
          have hdollar : isBlank '$' = true :=
            hblank '$' (by rw [← List.nil_append tail, ← htext]; rfl)
          cases hdollar
        | cons c name =>
          obtain ⟨rfl, -⟩ := List.cons.inj htext
          refine ⟨rfl, ?_, hword⟩
          rw [List.length_cons] at hlength ⊢
          omega
      · rw [hvalue]
        exact Text.trimmed_trim tail

/-- What a line defines has the form of a name and that of a value. -/
theorem read_eq_binding (h : read vars raw = .ok (.binding name value)) :
    Variables.IsName name ∧ Variables.IsValue value := by
  by_cases hne : trim (stripComment raw) = []
  · rw [read, hne] at h
    cases h
  -- only a line that starts with a dollar sign defines a variable
  by_cases hdollar : (trim (stripComment raw)).head? = some '$'
  · obtain ⟨rest, hrest⟩ := List.head?_eq_some_iff.mp hdollar
    rw [read, hrest] at h
    exact readVariable_eq_ok h
  · rw [read_eq_substitute hne hdollar] at h
    obtain ⟨folded, -, h⟩ := bind_eq_ok.mp h
    cases ofFolded_eq_ok.mp h

end Line

namespace Variables

variable {vars : Variables} {t name value : Text}

theorem after_eq (vars : Variables) (raw : Text) :
    vars.after raw = match definition? (Line.read vars raw) with
      | some (name, value) => vars.insert name value
      | none => vars := by
  rw [after]
  rcases Line.read vars raw with fault | line
  · rfl
  · cases line <;> rfl

theorem wellFormed_empty : WellFormed .empty := by
  intro name value h
  cases h

/-- A line keeps variables well-formed. -/
theorem WellFormed.after (h : vars.WellFormed) (raw : Text) : (vars.after raw).WellFormed := by
  rw [after_eq]
  rcases hread : Line.read vars raw with fault | line
  · exact h
  · cases line with
    | binding name value =>
      intro name' value' hget
      change (vars.insert name value).get? name' = some value' at hget
      rw [Dictionary.get?_insert] at hget
      split at hget
      · next heq =>
        cases hget
        rw [heq]
        exact Line.read_eq_binding hread
      · exact h name' value' hget
    | _ => exact h

theorem WellFormed.feed (h : vars.WellFormed) (lines : List Text) :
    (vars.feed lines).2.WellFormed := by
  induction lines generalizing vars with
  | nil => exact h
  | cons raw rest ih => exact ih (h.after raw)

/-- After some lines a name has the value of its last definition, or the one from before if there is
none. -/
theorem get?_feed (vars : Variables) (lines : List Text) (name : Text) :
    (vars.feed lines).2.get? name =
      (((vars.feed lines).1.filterMap definition?).reverse.lookup name).or (vars.get? name) := by
  induction lines generalizing vars with
  | nil => rfl
  | cons raw rest ih =>
    change ((vars.after raw).feed rest).2.get? name =
      (((Line.read vars raw :: ((vars.after raw).feed rest).1).filterMap
          definition?).reverse.lookup name).or _
    rw [ih, after_eq]
    cases hdefines : definition? (Line.read vars raw) with
    | none => rw [List.filterMap_cons_none hdefines]
    | some entry =>
      obtain ⟨name', value⟩ := entry
      rw [List.filterMap_cons_some hdefines, List.reverse_cons, List.lookup_append, Option.or_assoc]
      dsimp only
      rw [Dictionary.get?_insert, Dictionary.lookup_cons_eq_ite]
      by_cases hname : name = name'
      · rw [if_pos hname, if_pos hname]
        rfl
      · rw [if_neg hname, if_neg hname]
        rfl

/-! ## The longest name -/

/-- Whether a name has a value. -/
def Defines (vars : Variables) (name : Text) : Prop := (vars.get? name).isSome = true

theorem defines_iff : vars.Defines name ↔ ∃ value, vars.get? name = some value :=
  Option.isSome_iff_exists

theorem WellFormed.isName (h : vars.WellFormed) (hname : vars.Defines name) : IsName name := by
  obtain ⟨value, hvalue⟩ := defines_iff.mp hname
  exact (h name value hvalue).1

/-- The longest name that the text starts with, of variables in any order. -/
def longestIn (order : List (Text × Text)) (t : Text) : Option (Text × Text) :=
  (order.filter fun e => e.1.isPrefixOf t).foldl longer none

/-- Substitution with variables in any order. -/
def substituteIn (order : List (Text × Text)) : Nat → Text → Text
  | _, [] => []
  | skip + 1, _ :: rest => substituteIn order skip rest
  | 0, c :: rest =>
    if c = '$' then
      match longestIn order (c :: rest) with
      | some (name, value) => value ++ substituteIn order (name.length - 1) rest
      | none => c :: substituteIn order 0 rest
    else c :: substituteIn order 0 rest

theorem longestIn_eq_argmax (order : List (Text × Text)) (t : Text) :
    longestIn order t = (order.filter fun e => e.1.isPrefixOf t).argmax fun e => e.1.length := by
  have hlonger : longer = List.argAux fun e e' : Text × Text => e'.1.length < e.1.length := by
    funext best entry
    cases best <;> rfl
  rw [longestIn, hlonger]
  rfl

variable {order : List (Text × Text)}

theorem longestIn_eq_none (horder : order.Perm vars.entries) :
    longestIn order t = none ↔ ∀ name, vars.Defines name → ¬ name <+: t := by
  rw [longestIn_eq_argmax, List.argmax_eq_none, List.filter_eq_nil_iff]
  constructor
  · intro h name hname hprefix
    obtain ⟨value, hvalue⟩ := defines_iff.mp hname
    have hmem := horder.mem_iff.mpr (Dictionary.mem_entries.mpr hvalue)
    exact h _ hmem (List.isPrefixOf_iff_prefix.mpr hprefix)
  · rintro h ⟨name, value⟩ hmem hprefix
    have hvalue := Dictionary.mem_entries.mp (horder.mem_iff.mp hmem)
    exact h name (defines_iff.mpr ⟨value, hvalue⟩) (List.isPrefixOf_iff_prefix.mp hprefix)

/-- The longest name that a text starts with is one of the names, and no other is longer. -/
theorem longestIn_eq_some (horder : order.Perm vars.entries) :
    longestIn order t = some (name, value) ↔ vars.get? name = some value ∧ name <+: t ∧
      ∀ other, vars.Defines other → other <+: t → other.length ≤ name.length := by
  have hmem : ∀ name value, (name, value) ∈ order.filter (fun e => e.1.isPrefixOf t) ↔
      vars.get? name = some value ∧ name <+: t := by
    intro name value
    rw [List.mem_filter, horder.mem_iff, Dictionary.mem_entries, List.isPrefixOf_iff_prefix]
  have hsound : ∀ name value, longestIn order t = some (name, value) → vars.get? name = some value ∧
      name <+: t ∧ ∀ other, vars.Defines other → other <+: t → other.length ≤ name.length := by
    intro name value h
    rw [longestIn_eq_argmax] at h
    obtain ⟨hvalue, hprefix⟩ := (hmem name value).mp (List.argmax_mem h)
    refine ⟨hvalue, hprefix, fun other hother hprefix' => ?_⟩
    obtain ⟨value', hvalue'⟩ := defines_iff.mp hother
    have hle := List.le_of_mem_argmax ((hmem other value').mpr ⟨hvalue', hprefix'⟩) h
    exact hle
  refine ⟨hsound name value, ?_⟩
  rintro ⟨hvalue, hprefix, hlongest⟩
  have hname : vars.Defines name := defines_iff.mpr ⟨value, hvalue⟩
  cases hbest : longestIn order t with
  | none => exact absurd hprefix ((longestIn_eq_none horder).mp hbest name hname)
  | some best =>
    -- of two starts of one text that are equally long, both are the same
    obtain ⟨best, bestValue⟩ := best
    obtain ⟨hbestValue, hbestPrefix, hbestLongest⟩ := hsound best bestValue hbest
    have hbestName : vars.Defines best := defines_iff.mpr ⟨bestValue, hbestValue⟩
    have hlength : best.length = name.length :=
      Nat.le_antisymm (hlongest best hbestName hbestPrefix) (hbestLongest name hname hprefix)
    obtain rfl : best = name :=
      (List.prefix_of_prefix_length_le hbestPrefix hprefix hlength.le).eq_of_length
      hlength
    rw [hvalue] at hbestValue
    cases hbestValue
    rfl

/-- The order of the variables does not count for the longest name. -/
theorem longestIn_perm (horder : order.Perm vars.entries) :
    longestIn order t = vars.longest? t := by
  change longestIn order t = longestIn vars.entries t
  cases h : longestIn vars.entries t with
  | none => exact (longestIn_eq_none horder).mpr ((longestIn_eq_none (.refl _)).mp h)
  | some best => exact (longestIn_eq_some horder).mpr ((longestIn_eq_some (.refl _)).mp h)

theorem substituteIn_perm (horder : order.Perm vars.entries) (skip : Nat) (t : Text) :
    substituteIn order skip t = vars.substituteFrom skip t := by
  induction t generalizing skip with
  | nil => cases skip <;> rfl
  | cons c rest ih =>
    cases skip with
    | succ skip => exact ih skip
    | zero =>
      rw [substituteIn, substituteFrom, longestIn_perm horder]
      by_cases hdollar : c = '$'
      · rw [if_pos hdollar, if_pos hdollar]
        cases vars.longest? (c :: rest) with
        | none => exact congrArg (c :: ·) (ih 0)
        | some best => exact congrArg (best.2 ++ ·) (ih (best.1.length - 1))
      · rw [if_neg hdollar, if_neg hdollar, ih]

/-! ## Pieces of a text -/

/-- A piece of a text in which variables are replaced: a character that stays, or a name. -/
inductive Piece where
  | plain (c : Char)
  | named (name : Text)
  deriving DecidableEq

/-- What a piece was in the text. -/
def Piece.text : Piece → Text
  | plain c => [c]
  | named name => name

/-- What stands in the place of a piece. -/
def valueOf (vars : Variables) : Piece → Text
  | .plain c => [c]
  | .named name => (vars.get? name).getD []

/-- How a text comes apart, from left to right.  At a dollar sign the longest of the names that
stand there is a piece; otherwise one character is. -/
inductive Scans (names : Text → Prop) : Text → List Piece → Prop
  | nil : Scans names [] []
  | plain {c : Char} {rest : Text} {pieces : List Piece}
      (hplain : c = '$' → ∀ name, names name → ¬ name <+: c :: rest)
      (hrest : Scans names rest pieces) :
      Scans names (c :: rest) (.plain c :: pieces)
  | named {name rest : Text} {pieces : List Piece} (hdollar : (name ++ rest).head? = some '$')
      (hname : names name)
      (hlongest : ∀ other, names other → other <+: name ++ rest → other.length ≤ name.length)
      (hrest : Scans names rest pieces) : Scans names (name ++ rest) (.named name :: pieces)

namespace Scans

variable {names : Text → Prop} {pieces pieces' : List Piece}

/-- The pieces are the text. -/
theorem flatMap_text (h : Scans names t pieces) : pieces.flatMap Piece.text = t := by
  induction h with
  | nil => rfl
  | plain _ _ ih => rw [List.flatMap_cons, ih, Piece.text, List.singleton_append]
  | named _ _ _ _ ih => rw [List.flatMap_cons, ih, Piece.text]

theorem unique (h : Scans names t pieces) (h' : Scans names t pieces') : pieces' = pieces := by
  induction h generalizing pieces' with
  | nil =>
    generalize ht : ([] : Text) = t at h'
    cases h' with
    | nil => rfl
    | plain => cases ht
    | named hdollar => cases ht ▸ hdollar
  | @plain c rest _ hplain _ ih =>
    generalize ht : c :: rest = t at h'
    cases h' with
    | nil => cases ht
    | plain _ hrest' =>
      cases ht
      rw [ih hrest']
    | named hdollar hname =>
      rw [← ht] at hdollar
      exact absurd (ht ▸ List.prefix_append _ _) (hplain (Option.some.inj hdollar) _ hname)
  | @named name rest _ hdollar hname hlongest _ ih =>
    generalize ht : name ++ rest = t at h'
    cases h' with
    | nil => rw [ht] at hdollar; cases hdollar
    | plain hplain' =>
      rw [ht] at hdollar
      exact absurd (ht ▸ List.prefix_append name rest) (hplain' (Option.some.inj hdollar) _ hname)
    | @named name' rest' _ hdollar' hname' hlongest' hrest' =>
      have hlength : name.length = name'.length :=
        Nat.le_antisymm (hlongest' _ hname (ht ▸ List.prefix_append _ _))
          (hlongest _ hname' (ht ▸ List.prefix_append _ _))
      obtain ⟨rfl, rfl⟩ := List.append_inj ht hlength
      rw [ih hrest']

end Scans

/-! ## Substitution -/

theorem substitute_plain {c : Char} {rest : Text}
    (h : c = '$' → ∀ name, vars.Defines name → ¬ name <+: c :: rest) :
    vars.substitute (c :: rest) = c :: vars.substitute rest := by
  rw [substitute, substituteFrom]
  split
  · next hdollar =>
    have hnone : vars.longest? (c :: rest) = none := (longestIn_eq_none (.refl _)).mpr (h hdollar)
    rw [hnone]
    rfl
  · rfl

@[simp] theorem substituteFrom_length_append (vars : Variables) (front t : Text) :
    vars.substituteFrom front.length (front ++ t) = vars.substitute t := by
  induction front with
  | nil => rfl
  | cons c rest ih => exact ih

theorem substitute_named {rest : Text} (hdollar : name.head? = some '$')
    (hvalue : vars.get? name = some value)
    (hlongest : ∀ other, vars.Defines other → other <+: name ++ rest → other.length ≤ name.length) :
    vars.substitute (name ++ rest) = value ++ vars.substitute rest := by
  have hbest : vars.longest? (name ++ rest) = some (name, value) :=
    (longestIn_eq_some (.refl _)).mpr ⟨hvalue, List.prefix_append name rest, hlongest⟩
  obtain ⟨tail, rfl⟩ := List.head?_eq_some_iff.mp hdollar
  rw [List.cons_append] at hbest ⊢
  rw [substitute, substituteFrom, if_pos rfl, hbest]
  exact congrArg (value ++ ·) (substituteFrom_length_append vars tail rest)

variable {pieces : List Piece}

/-- Substitution puts a value in the place of each name. -/
theorem substitute_of_scans (hnames : ∀ name, vars.Defines name → IsName name)
    (h : Scans vars.Defines t pieces) :
    vars.substitute t = pieces.flatMap vars.valueOf := by
  induction h with
  | nil => rfl
  | plain hplain _ ih =>
      rw [substitute_plain hplain, ih, List.flatMap_cons, valueOf, List.singleton_append]
  | named _ hname hlongest _ ih =>
    obtain ⟨value, hvalue⟩ := defines_iff.mp hname
    rw [substitute_named (hnames _ hname).head hvalue hlongest, ih, List.flatMap_cons,
      valueOf, hvalue]
    rfl

/-- Every text comes apart. -/
theorem exists_scans (hnames : ∀ name, vars.Defines name → IsName name) (t : Text) :
    ∃ pieces, Scans vars.Defines t pieces := by
  induction hlength : t.length using Nat.strong_induction_on generalizing t with
  | h length ih =>
    subst hlength
    cases t with
    | nil => exact ⟨[], .nil⟩
    | cons c rest =>
      have hplain : (c = '$' → ∀ name, vars.Defines name → ¬ name <+: c :: rest) →
          ∃ pieces, Scans vars.Defines (c :: rest) pieces := by
        intro hnone
        obtain ⟨pieces, hpieces⟩ := ih _ (Nat.lt_succ_self _) rest rfl
        exact ⟨_, .plain hnone hpieces⟩
      cases hbest : vars.longest? (c :: rest) with
      | none => exact hplain fun _ => (longestIn_eq_none (.refl _)).mp hbest
      | some best =>
        obtain ⟨name, value⟩ := best
        obtain ⟨hvalue, ⟨later, htext⟩, hlongest⟩ := (longestIn_eq_some (.refl _)).mp hbest
        have hdefines : vars.Defines name := defines_iff.mpr ⟨value, hvalue⟩
        have hname := hnames name hdefines
        -- a name is not empty, so what follows it is shorter than the text
        have hshorter : later.length < (c :: rest).length := by
          have hlong := hname.length
          rw [← htext, List.length_append]
          omega
        obtain ⟨pieces, hpieces⟩ := ih _ hshorter later rfl
        rw [← htext] at hlongest ⊢
        refine ⟨_, .named ?_ hdefines hlongest hpieces⟩
        rw [List.head?_append, hname.head]
        rfl

/-! ## The loop

Substitution can be done in rounds, on what has come out so far and what is left of the text. -/

/-- One round: what stands before the next dollar sign comes out, and then the value of the longest
name there, or the sign itself.  Without a dollar sign there is no round. -/
def round (vars : Variables) (out rest : Text) : Option (Text × Text) :=
  let out := out ++ rest.takeWhile (· != '$')
  match rest.dropWhile (· != '$') with
  | [] => none
  | c :: later =>
    match vars.longest? (c :: later) with
    | some (name, value) => some (out ++ value, (c :: later).drop name.length)
    | none => some (out ++ [c], later)

/-- All rounds, and what has come out at the end. -/
inductive Rounds (vars : Variables) : Text → Text → Text → Prop
  | done {out rest : Text} (hround : vars.round out rest = none) :
      Rounds vars out rest (out ++ rest)
  | again {out rest out' rest' result : Text} (hround : vars.round out rest = some (out', rest'))
      (later : Rounds vars out' rest' result) : Rounds vars out rest result

variable {out rest out' rest' : Text}

@[simp] theorem round_eq_none : vars.round out rest = none ↔ '$' ∉ rest := by
  have hnone : rest.dropWhile (· != '$') = [] ↔ '$' ∉ rest := by
    rw [List.dropWhile_eq_nil_iff]
    refine ⟨fun h hmem => by simpa using h _ hmem, fun h c hc => ?_⟩
    exact bne_iff_ne.mpr (ne_of_mem_of_not_mem hc h)
  rw [← hnone, Variables.round]
  cases rest.dropWhile (· != '$') with
  | nil => exact iff_of_true rfl rfl
  | cons c later =>
    refine iff_of_false ?_ nofun
    dsimp only
    split <;> exact nofun

/-- What is taken from a dollar sign on: a name, of which there is no longer one, or the sign
itself. -/
theorem WellFormed.substitute_dollar (h : vars.WellFormed) (later : Text) :
    (∃ name value rest', vars.longest? ('$' :: later) = some (name, value) ∧
      '$' :: later = name ++ rest' ∧ name ≠ [] ∧
      vars.substitute ('$' :: later) = value ++ vars.substitute rest') ∨
    vars.longest? ('$' :: later) = none ∧
      vars.substitute ('$' :: later) = '$' :: vars.substitute later := by
  cases hbest : vars.longest? ('$' :: later) with
  | none => exact .inr ⟨rfl, substitute_plain fun _ => (longestIn_eq_none (.refl _)).mp hbest⟩
  | some best =>
    obtain ⟨name, value⟩ := best
    obtain ⟨hvalue, ⟨rest', htext⟩, hlongest⟩ := (longestIn_eq_some (.refl _)).mp hbest
    have hname := h.isName (defines_iff.mpr ⟨value, hvalue⟩)
    refine .inl ⟨name, value, rest', rfl, htext.symm, ?_, ?_⟩
    · rintro rfl
      exact absurd hname.length nofun
    · rw [← htext] at hlongest ⊢
      exact substitute_named hname.head hvalue hlongest

/-- A round leaves less of the text, and has put out what becomes of the part that it took. -/
theorem WellFormed.round (h : vars.WellFormed) (hround : vars.round out rest = some (out', rest')) :
    rest'.length < rest.length ∧ out' ++ vars.substitute rest' = out ++ vars.substitute rest := by
  have hrest := List.takeWhile_append_dropWhile (p := (· != '$')) (l := rest)
  have hfront : '$' ∉ rest.takeWhile (· != '$') := fun hmem => by
    simpa using List.mem_takeWhile_imp hmem
  have hhead := List.head?_dropWhile_not (· != '$') rest
  rw [Variables.round] at hround
  cases hdrop : rest.dropWhile (· != '$') with
  | nil =>
    rw [hdrop] at hround
    cases hround
  | cons c later =>
    rw [hdrop] at hround hrest hhead
    obtain rfl : c = '$' := by simpa using hhead
    dsimp only at hround
    rw [← hrest, Line.substitute_append vars hfront, List.length_append, ← List.append_assoc]
    obtain ⟨name, value, tail, hbest, htext, hne, hsame⟩ | ⟨hbest, hsame⟩ :=
      h.substitute_dollar later
    · rw [hbest] at hround
      cases hround
      have hlength := List.length_pos_of_ne_nil hne
      rw [hsame, htext, List.drop_left, List.length_append]
      exact ⟨by omega, by simp only [List.append_assoc]⟩
    · rw [hbest] at hround
      cases hround
      rw [hsame, List.length_cons]
      exact ⟨by omega, by simp only [List.append_assoc, List.singleton_append]⟩

/-- The rounds come to an end, which is the substitution. -/
theorem WellFormed.rounds_iff (h : vars.WellFormed) {result : Text} :
    Rounds vars out rest result ↔ result = out ++ vars.substitute rest := by
  constructor
  · intro hrounds
    induction hrounds with
    | done hround => rw [Line.substitute_of_notMem vars (round_eq_none.mp hround)]
    | again hround _ ih => rw [ih, (h.round hround).2]
  · rintro rfl
    induction hlength : rest.length using Nat.strong_induction_on generalizing out rest with
    | h length ih =>
      subst hlength
      cases hround : vars.round out rest with
      | none =>
        rw [Line.substitute_of_notMem vars (round_eq_none.mp hround)]
        exact .done hround
      | some next =>
        obtain ⟨out', rest'⟩ := next
        obtain ⟨hshorter, hsame⟩ := h.round hround
        rw [← hsame]
        exact .again hround (ih _ hshorter rfl)

end Variables

/-! ## Sessions -/

namespace Session

@[simp] theorem bindings_push (setup : Setup) (s : Session) (raw : Text) :
    (s.push setup raw).1.bindings = s.bindings.after raw := by
  rw [Variables.after]
  cases h : s.interpret setup raw with
  | ok step =>
    rw [push_of_ok h]
    cases interpret_eq_ok.mp h with
    | nothing hline => rw [hline]; rfl
    | bind hline => rw [hline]; rfl
    | load hline => rw [hline]; rfl
    | declare hline _ => rw [hline]; rfl
    | emit hline _ _ => rw [hline]; rfl
  | error fault =>
    rw [push_of_error h]
    cases hline : Line.read s.bindings raw with
    | error _ => rfl
    | ok line =>
      cases line with
      | binding name value =>
        rw [interpret_eq_ok.mpr (.bind hline)] at h
        cases h
      | _ => rfl

/-- The variables of a session are those of its lines. -/
@[simp] theorem bindings_replay (setup : Setup) (s : Session) (lines : List Text) :
    (s.replay setup lines).1.bindings = (s.bindings.feed lines).2 := by
  induction lines generalizing s with
  | nil => rfl
  | cons raw rest ih =>
    rw [replay_cons_fst, ih, bindings_push]
    rfl

end Session

namespace Variables

/-- The variables that lines define are well-formed, and each has the value of its last definition;
a session has these variables.  Given well-formed variables, a text comes apart in one way, and
substitution puts the values in the place of the names, whatever the values are and in whatever
order the variables are held. -/
theorem substitution_by_scan (setup : Setup) (lines : List Text) :
    (feed .empty lines).2.WellFormed ∧
    (∀ name, (feed .empty lines).2.get? name =
      ((feed .empty lines).1.filterMap definition?).reverse.lookup name) ∧
    (Session.start.replay setup lines).1.bindings = (feed .empty lines).2 ∧
    ∀ vars : Variables, vars.WellFormed → ∀ t,
      (∃ pieces, Scans vars.Defines t pieces ∧
        (∀ pieces', Scans vars.Defines t pieces' → pieces' = pieces) ∧
        pieces.flatMap Piece.text = t ∧ vars.substitute t = pieces.flatMap vars.valueOf ∧
        ∀ vars' : Variables, (∀ name, vars'.Defines name ↔ vars.Defines name) →
          vars'.substitute t = pieces.flatMap vars'.valueOf) ∧
      ∀ order, order.Perm vars.entries → substituteIn order 0 t = vars.substitute t := by
  refine ⟨wellFormed_empty.feed lines, fun name => ?_, Session.bindings_replay setup _ lines, ?_⟩
  · rw [get?_feed, Dictionary.get?_empty, Option.or_none]
  · intro vars hvars t
    have hnames : ∀ name, vars.Defines name → IsName name := fun name => hvars.isName
    obtain ⟨pieces, hpieces⟩ := exists_scans hnames t
    refine ⟨⟨pieces, hpieces, fun pieces' => hpieces.unique, hpieces.flatMap_text,
      substitute_of_scans hnames hpieces, fun vars' hsame => ?_⟩, fun order horder => ?_⟩
    · have hdefines : vars'.Defines = vars.Defines := funext fun name => propext (hsame name)
      rw [← hdefines] at hnames hpieces
      exact substitute_of_scans hnames hpieces
    · exact substituteIn_perm horder 0 t

/-- One name is a start of the other, its first value holds itself, and its last value is the other
name. -/
def portLines : List Text :=
  ["$port $port1", " $portb 20 ; the other", "$port", "$port $portb"].map String.toList

theorem portLines_by_scan :
    (feed .empty portLines).2.WellFormed ∧
    (feed .empty portLines).2.get? "$port".toList = some "$portb".toList ∧
    ∃ pieces, Scans (feed .empty portLines).2.Defines "out ($portb),$port$".toList pieces ∧
      pieces.flatMap (feed .empty portLines).2.valueOf = "out (20),$portb$".toList := by
  obtain ⟨hvars, hlast, -, hscan⟩ := substitution_by_scan Session.sampleSetup portLines
  have hout : (feed .empty portLines).2.substitute "out ($portb),$port$".toList =
      "out (20),$portb$".toList := by
    decide +kernel
  obtain ⟨⟨pieces, hpieces, -, -, hsubstitute, -⟩, -⟩ := hscan _ hvars "out ($portb),$port$".toList
  refine ⟨hvars, ?_, pieces, hpieces, hsubstitute.symm.trans hout⟩
  rw [hlast]
  decide +kernel

end Variables

end Z80
