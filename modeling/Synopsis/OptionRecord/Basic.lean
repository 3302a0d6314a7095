import Synopsis.Lexeme.Cut
import Synopsis.Text.Alphanumeric
import Synopsis.Text.Blank

/-!
# Option records

The options section has one record for each option.  The names that stand on
one line are aliases of one option.  The description is kept as the fragments
of its lines; `OptionRecord.description` joins them.

The value that an option has by default is written into its description, as
`[default: value]`.  Of several the last one counts.
-/

namespace Synopsis

open Lexeme

/-- An option of the options section.

* `level` is the width of the indentation of the line that defines it, and
  `lineNumber` the number of that line;
* `fragments` are the lines of its description. -/
structure OptionRecord where
  names : List String
  value : Option String
  level : Nat
  fragments : List String
  lineNumber : Nat
  deriving DecidableEq, Repr

namespace OptionRecord

/-- Whether the option takes a value. -/
def hasArgument (record : OptionRecord) : Bool :=
  record.value.isSome

/-- Whether `name` is one of the names of the option. -/
def isNamed (record : OptionRecord) (name : String) : Bool :=
  record.names.contains name

/-- A name that starts with two dashes. -/
def isLong (name : String) : Bool :=
  ['-', '-'].isPrefixOf name.toList

/-- The first long name, or else the first name. -/
def canonicalName (record : OptionRecord) : String :=
  ((record.names.find? isLong).or record.names.head?).getD ""

/-! ## The description -/

/-- A fragment that starts a new line of the description: an empty one, or one
that does not start with a letter, a number or an underscore. -/
def startsLine : List Char → Bool
  | [] => true
  | c :: _ => !(Text.isAlphanumeric c || c == '_')

/-- The text with one more fragment behind it. -/
def joinFragment (text fragment : List Char) : List Char :=
  if text.isEmpty then fragment
  else text ++ (if startsLine fragment then '\n' else ' ') :: fragment

/-- The characters of the description. -/
def prose (record : OptionRecord) : List Char :=
  Text.trim ((record.fragments.map String.toList).foldl joinFragment [])

/-- The description as one text. -/
def description (record : OptionRecord) : String :=
  String.ofList record.prose

/-! ## The default value -/

/-- The text of the annotation that `s` starts with, and what follows it.  An
annotation holds one character at least and ends at the next bracket. -/
def annotation? (s : List Char) : Option Cut :=
  (caseless? ['[', 'd', 'e', 'f', 'a', 'u', 'l', 't', ':'] s).bind fun mark =>
    let body := Cut.run (· != ']') mark.rest
    match body.taken, body.rest with
    | _ :: _, ']' :: rest => some ⟨body.taken, rest⟩
    | _, _ => none

theorem length_lt_of_annotation? {s : List Char} {cut : Cut}
    (h : annotation? s = some cut) : cut.rest.length < s.length := by
  obtain ⟨mark, hmark, h⟩ := Option.bind_eq_some_iff.1 h
  have hs := caseless?_isOf hmark
  have hbody := Cut.run_isOf (· != ']') mark.rest
  rw [Cut.IsOf] at hs hbody
  simp only at h
  split at h
  · rename_i htaken hrest
    obtain rfl := Option.some.inj h
    rw [htaken, hrest] at hbody
    rw [← hs, ← hbody]
    simp only [List.length_append, List.length_cons]
    omega
  · simp at h

/-- The texts of all annotations, from the left, none inside another. -/
def annotations (s : List Char) : List (List Char) :=
  match s with
  | [] => []
  | c :: t =>
    match _ : annotation? (c :: t) with
    | some cut => cut.taken :: annotations cut.rest
    | none => annotations t
termination_by s.length
decreasing_by
  · exact length_lt_of_annotation? ‹_›
  · simp

/-- The default value that the description states. -/
def default? (record : OptionRecord) : Option String :=
  match (annotations record.prose).getLast? with
  | none => none
  | some text =>
    let value := Text.trim text
    if value.isEmpty then none else some (String.ofList value)

end OptionRecord

end Synopsis
