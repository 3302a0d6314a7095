import Synopsis.Failure
import Synopsis.Grammar.Basic
import Synopsis.Text.Lines
import Synopsis.Usage.Tokens

/-!
# Reading a usage section

The first line that is not blank starts with the name of the program.  Each
later line that starts with that name opens a new invocation form; any other
line continues the form before it.

Groups, alternatives and ellipses that have nothing to apply to are refused
where they are read.  A bar at the end of a line is refused only when no line
continues the form.  Whether groups nest is not checked here; that is the work
of `Grammar.balance`.
-/

namespace Synopsis

/-- A usage section: the name of the program, and one grammar for each of its
invocation forms. -/
structure Usage where
  binary : String
  variants : List Grammar
  deriving DecidableEq, Repr

namespace Usage

open Lexeme

/-! ## Neighbours -/

/-- What is wrong with `next` directly behind `previous`, if anything is. -/
def misplaced? (previous : Option Token) (next : Token) : Option Violation :=
  match previous, next with
  | some (.opening _ _), .closing _ _ => some .emptyGroup
  | some (.bar _ _), .closing _ _ => some .emptyAlternative
  | none, .bar _ _ => some .emptyAlternative
  | some (.opening _ _), .bar _ _ => some .emptyAlternative
  | some (.bar _ _), .bar _ _ => some .emptyAlternative
  | none, .ellipsis => some .nothingToRepeat
  | some (.opening _ _), .ellipsis => some .nothingToRepeat
  | some (.bar _ _), .ellipsis => some .nothingToRepeat
  | some .ellipsis, .ellipsis => some .nothingToRepeat
  | _, _ => none

/-- The tokens that an item of a sequence can end with. -/
def endsItem : Token → Bool
  | .separator | .bar _ _ | .opening _ _ => false
  | _ => true

/-- The tokens that an item of a sequence can start with. -/
def startsItem : Token → Bool
  | .separator | .bar _ _ | .closing _ _ | .ellipsis => false
  | _ => true

/-- Whether a gap between two tokens counts: it does between two items. -/
def separates (previous : Option Token) (next : Token) : Bool :=
  previous.any endsItem && startsItem next

/-! ## One line -/

/-- Adds a token to a grammar, with a separator before it where a gap counts. -/
def place (line : SourceLine) (g : Grammar) (scanned : ScannedToken) :
    Except ParseFailure Grammar :=
  match misplaced? g.last? scanned.token with
  | some violation => .error (line.failure violation scanned.tail)
  | none =>
    if scanned.spaced && separates g.last? scanned.token then
      .ok ((g.push .separator).push scanned.token)
    else
      .ok (g.push scanned.token)

/-- Adds the tokens of what is left of a line to a grammar. -/
def extend (line : SourceLine) (g : Grammar) (spaced : Bool) (tail : List Char) :
    Except ParseFailure Grammar :=
  let scanned := scan spaced tail
  match scanned.tokens.foldlM (place line) g with
  | .error failure => .error failure
  | .ok g =>
    match scanned.unreadable with
    | some rest => .error (line.failure .unreadable rest)
    | none => .ok g

/-! ## The section -/

/-- What has been read of a section whose first form has been opened. -/
structure Reading where
  binary : List Char
  /-- The forms before the current one. -/
  finished : List Grammar
  current : Grammar
  /-- The failure to report unless the current form is continued. -/
  dangling : Option ParseFailure
  deriving DecidableEq, Repr

namespace Reading

/-- The first form of a program. -/
def start (binary : List Char) : Reading :=
  ⟨binary, [], .empty, none⟩

/-- Closes the current form and opens a new one. -/
def startNext (r : Reading) : Except ParseFailure Reading :=
  match r.dangling with
  | some failure => .error failure
  | none => .ok ⟨r.binary, r.finished ++ [r.current], .empty, none⟩

/-- Reads what is left of a line into the current form. -/
def continueWith (r : Reading) (line : SourceLine) (spaced : Bool) (tail : List Char) :
    Except ParseFailure Reading :=
  match extend line r.current spaced tail with
  | .error failure => .error failure
  | .ok g =>
    let dangling :=
      match g.last? with
      | some (.bar _ _) => some (line.failure .emptyAlternative [])
      | _ => none
    .ok { r with current := g, dangling := dangling }

/-- The usage that has been read. -/
def finish (r : Reading) : Except ParseFailure Usage :=
  match r.dangling with
  | some failure => .error failure
  | none => .ok ⟨String.ofList r.binary, r.finished ++ [r.current]⟩

/-- Reads one line.  There is no reading before the first line that is not
blank. -/
def readLine (reading : Option Reading) (line : SourceLine) :
    Except ParseFailure (Option Reading) :=
  let tail := (indent line.text).rest
  if tail.isEmpty then
    .ok reading
  else
    match reading, binaryName? tail with
    | none, none => .error (line.failure .unnamed tail)
    | none, some name =>
      ((start name.taken).continueWith line false name.rest).map some
    | some r, some name =>
      if name.taken = r.binary then
        match r.startNext with
        | .error failure => .error failure
        | .ok next => (next.continueWith line false name.rest).map some
      else
        (r.continueWith line true tail).map some
    | some r, none => (r.continueWith line true tail).map some

end Reading

/-- The failure of a section without an invocation form.  It points behind the
last line. -/
def unnamedFailure (lines : List (List Char)) : ParseFailure :=
  SourceLine.failure ⟨lines.getLast?.getD [], lines.length⟩ .unnamed []

/-- Reads the lines of a usage section. -/
def ofLines (lines : List (List Char)) : Except ParseFailure Usage :=
  match (SourceLine.ofLines lines).foldlM Reading.readLine none with
  | .error failure => .error failure
  | .ok none => .error (unnamedFailure lines)
  | .ok (some reading) => reading.finish

/-- Reads a usage section: the text behind the header. -/
def parse (text : String) : Except ParseFailure Usage :=
  ofLines (Text.lines text.toList)

end Usage

end Synopsis
