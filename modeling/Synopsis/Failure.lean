import Synopsis.Text.Quoted
import Synopsis.Text.Width

/-!
# Failures

A failure says what is wrong with a line of a section and where reading
stopped.  The place is the part of the line that was left, so the column is
what the line has before it.
-/

namespace Synopsis

/-! ## What is wrong -/

/-- The kinds of failures. -/
inductive FailureKind
  /-- No token can be read. -/
  | lexical
  /-- A group, an alternative or an ellipsis has nothing to apply to. -/
  | emptiness
  /-- The usage section names no program. -/
  | missingBinaryName
  /-- An option name is followed by none of the things that can follow it. -/
  | malformedOption
  deriving DecidableEq, Repr

/-- The ways in which a section breaks the rules. -/
inductive Violation
  /-- No token starts here. -/
  | unreadable
  /-- A group closes directly behind its opening half. -/
  | emptyGroup
  /-- Nothing stands before or behind a bar. -/
  | emptyAlternative
  /-- Nothing stands before an ellipsis. -/
  | nothingToRepeat
  /-- A line should start with the name of the program. -/
  | unnamed
  /-- An option name runs into something else. -/
  | malformedOption
  deriving DecidableEq, Repr

namespace Violation

/-- The kind of failure that a violation is. -/
def kind : Violation → FailureKind
  | unreadable => .lexical
  | emptyGroup | emptyAlternative | nothingToRepeat => .emptiness
  | unnamed => .missingBinaryName
  | malformedOption => .malformedOption

/-- The text that states a violation. -/
def reason : Violation → String
  | unreadable =>
    "expected option, argument, one of the structural symbols, or none found"
  | emptyGroup => "empty groups not allowed"
  | emptyAlternative => "empty alternative not allowed"
  | nothingToRepeat => "nothing to repeat"
  | unnamed => "expected binary name"
  | malformedOption =>
    "expected two or more spaces or option definition, but none found"

end Violation

/-! ## Failures with their place -/

/-- A failure in one line of a section.

* `line` is the whole line and `tail` the part of it that was left;
* `lineNumber` counts from one, and is zero when there was no line at all. -/
structure ParseFailure where
  kind : FailureKind
  reason : String
  line : String
  tail : String
  lineNumber : Nat
  deriving DecidableEq, Repr

namespace ParseFailure

/-- The number of bytes before the place. -/
def column (failure : ParseFailure) : Nat :=
  Text.byteWidth failure.line.toList - Text.byteWidth failure.tail.toList

/-- The sign that marks the place. -/
def cursor : Char := '→'

/-- The line with the cursor at the place.  When the column falls inside a
character the cursor stands at the end. -/
def markedLine (failure : ParseFailure) : String :=
  let line := failure.line.toList
  match Text.splitAtByte? line failure.column with
  | some (head, rest) => String.ofList (head ++ cursor :: rest)
  | none => String.ofList (line ++ [cursor])

/-- The message that reports a failure. -/
def message (failure : ParseFailure) : String :=
  let number :=
    if failure.lineNumber = 0 then "" else
      "line " ++ toString failure.lineNumber ++ ": "
  number ++ failure.reason ++ ": " ++
    String.ofList (Text.quote failure.markedLine.toList)

end ParseFailure

/-! ## The lines of a section -/

/-- A line of a section with its number. -/
structure SourceLine where
  text : List Char
  number : Nat
  deriving DecidableEq, Repr

namespace SourceLine

/-- The lines of a section, numbered from one. -/
def ofLines (lines : List (List Char)) : List SourceLine :=
  (lines.zipIdx 1).map fun (text, number) => ⟨text, number⟩

/-- The failure of a line that reading leaves at `tail`. -/
def failure (line : SourceLine) (violation : Violation) (tail : List Char) :
    ParseFailure where
  kind := violation.kind
  reason := violation.reason
  line := String.ofList line.text
  tail := String.ofList tail
  lineNumber := line.number

end SourceLine

end Synopsis
