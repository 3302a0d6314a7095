import Synopsis.Lexeme.Layout
import Synopsis.Lexeme.Name
import Synopsis.Text.Lines

/-!
# The sections of a help document

The usage section is what follows the first usage header, up to the next blank
line.  The options section starts behind it, at the first line that defines an
option, and goes on up to a line at the margin that defines none.
-/

namespace Synopsis.Help

open Lexeme

/-- The sections of a help document. -/
structure Sections where
  usage : String
  options : Option String
  deriving DecidableEq, Repr

/-! ## Kinds of lines -/

/-- A line of blanks. -/
def isBlankLine (line : List Char) : Bool :=
  line.all Text.isBlank

/-- A line whose first word is an option name. -/
def definesOption (line : List Char) : Bool :=
  (optionName? (Text.trimStart line)).isSome

/-- A line that starts without a blank. -/
def atMargin : List Char → Bool
  | [] => false
  | c :: _ => !Text.isBlank c

/-- A line that goes on with an options section. -/
def staysInOptions (line : List Char) : Bool :=
  !atMargin line || definesOption line

/-! ## The cut -/

/-- What follows the first usage header: the rest of its line, and the lines
behind it. -/
def afterHeader? : List (List Char) → Option (List Char × List (List Char))
  | [] => none
  | line :: lines =>
    match usageHeader? line with
    | some header => some (header.rest, lines)
    | none => afterHeader? lines

/-- The lines up to the first blank one. -/
def usageLines (lines : List (List Char)) : List (List Char) :=
  lines.takeWhile (!isBlankLine ·)

/-- The lines behind the first blank one. -/
def linesAfterUsage (lines : List (List Char)) : List (List Char) :=
  (lines.dropWhile (!isBlankLine ·)).drop 1

/-- The lines without the blank ones at the end. -/
def dropBlankEnd (lines : List (List Char)) : List (List Char) :=
  (lines.reverse.dropWhile isBlankLine).reverse

/-- The options section among the lines behind the usage section. -/
def optionLines? (lines : List (List Char)) : Option (List (List Char)) :=
  match lines.dropWhile (!definesOption ·) with
  | [] => none
  | first :: rest => some (dropBlankEnd (first :: rest.takeWhile staysInOptions))

/-- The sections of a document with these lines.  There are none without a
usage header. -/
def Sections.ofLines? (lines : List (List Char)) : Option Sections :=
  (afterHeader? lines).map fun (first, lines) =>
    { usage :=
        String.ofList (Text.trim (Text.joinLines (first :: usageLines lines)))
      options :=
        (optionLines? (linesAfterUsage lines)).map fun block =>
          String.ofList (Text.joinLines block) }

/-- Cuts a help document into its sections. -/
def Sections.ofDocument? (document : String) : Option Sections :=
  ofLines? (Text.lines document.toList)

end Synopsis.Help
