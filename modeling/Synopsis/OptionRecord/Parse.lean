import Synopsis.Failure
import Synopsis.Lexeme.Layout
import Synopsis.Lexeme.Placeholder
import Synopsis.OptionRecord.Basic
import Synopsis.Text.Lines

/-!
# Reading an options section

A line that starts with option names defines an option.  The names are
separated by commas or single spaces; two spaces or more, or a tab, set the
description off.  Any other line is one more fragment of the description
before it, and text before the first definition is skipped.

Text that is indented as far as a description is part of the description, even
when it looks like a definition.
-/

namespace Synopsis.OptionRecord

open Lexeme

/-! ## The head of a line -/

/-- The names at the start of a line, the last value written behind one of
them, whether a description is set off from them, and what is left. -/
structure Heading where
  names : List (List Char)
  value : Option (List Char)
  described : Bool
  rest : List Char
  deriving DecidableEq, Repr

/-- The heading with one more option use before it. -/
def Heading.cons (use : OptionUse) (heading : Heading) : Heading :=
  { heading with
    names := use.name :: heading.names
    value := heading.value.or use.value }

/-- Reads the names at the start of a line.  There is an error when something
else stands directly behind a name; the error is what the line has left
there. -/
def readHeading (s : List Char) : Except (List Char) Heading :=
  match _ : optionUse? s with
  | none => .ok ⟨[], none, false, s⟩
  | some use =>
    match descriptionSeparator? use.rest with
    | some cut => .ok ⟨[use.name], use.value, true, cut.rest⟩
    | none =>
      match lineEnd? use.rest with
      | some cut => .ok ⟨[use.name], use.value, false, cut.rest⟩
      | none =>
        match _ : nameSeparator? use.rest with
        | some cut => (readHeading cut.rest).map (Heading.cons use)
        | none => .error use.rest
termination_by s.length
decreasing_by
  have huse := (takes_of_optionUse? ‹_›).rest_length_lt
  have hcut := (takes_of_nameSeparator? ‹_›).rest_length_lt
  simp only at huse
  omega

/-! ## The section -/

/-- What has been read of a section: the records, the latest first, and the
column where the description of the latest record starts, if one is set off
from its names. -/
structure Reading where
  records : List OptionRecord
  column : Option Nat
  deriving DecidableEq, Repr

namespace Reading

/-- The reading of nothing. -/
def start : Reading :=
  ⟨[], none⟩

/-- Whether text at this indentation belongs to the latest description. -/
def wraps (r : Reading) (level : Nat) : Bool :=
  r.column.any (· ≤ level)

/-- Adds a fragment to the description of the latest record. -/
def addFragment (r : Reading) (fragment : List Char) : Reading :=
  match r.records with
  | [] => r
  | latest :: earlier =>
    let text := String.ofList (Text.trimEnd fragment)
    { r with records :=
        { latest with fragments := latest.fragments ++ [text] } :: earlier }

/-- Adds the record that a line defines. -/
def addRecord (r : Reading) (line : SourceLine) (level : Nat) (heading : Heading) :
    Reading :=
  let record : OptionRecord :=
    { names := heading.names.map String.ofList
      value := heading.value.map String.ofList
      level := level
      fragments := []
      lineNumber := line.number }
  let column :=
    if heading.described then
      some (Text.byteWidth line.text - Text.byteWidth heading.rest)
    else
      none
  addFragment ⟨record :: r.records, column⟩ heading.rest

/-- Reads one line. -/
def readLine (r : Reading) (line : SourceLine) : Except ParseFailure Reading :=
  let margin := indent line.text
  let level := Text.byteWidth margin.taken
  if r.wraps level then
    .ok (r.addFragment margin.rest)
  else
    match readHeading margin.rest with
    | .error tail => .error (line.failure .malformedOption tail)
    | .ok heading =>
      if heading.names.isEmpty then
        .ok (r.addFragment margin.rest)
      else
        .ok (r.addRecord line level heading)

end Reading

/-- Reads the lines of an options section. -/
def ofLines (lines : List (List Char)) : Except ParseFailure (List OptionRecord) :=
  ((SourceLine.ofLines lines).foldlM Reading.readLine Reading.start).map
    fun r => r.records.reverse

/-- Reads an options section into its records, in their order. -/
def parse (text : String) : Except ParseFailure (List OptionRecord) :=
  ofLines (Text.lines text.toList)

end Synopsis.OptionRecord
