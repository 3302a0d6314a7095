import Synopsis.Lexeme.Layout
import Synopsis.Lexeme.Placeholder

/-!
# The kinds of lexemes

Every piece of text that a help document is made of, under one name.
`Kind.match?` runs the recogniser of a kind and answers with the parts of the
piece that the kind singles out.
-/

namespace Synopsis.Lexeme

/-- The kinds of lexemes. -/
inductive Kind
  | indent
  | gap
  | lineEnd
  | binaryName
  | optionName
  | placeholder
  | optionUse
  | word
  | requiredStart
  | optionalStart
  | requiredEnd
  | optionalEnd
  | bar
  | ellipsis
  | nameSeparator
  | descriptionSeparator
  | usageHeader
  deriving DecidableEq, Repr

/-- A recognised lexeme: the whole piece, its parts, and what follows it.  A
part that the piece does without is `none`. -/
structure Match where
  whole : List Char
  parts : List (Option (List Char))
  rest : List Char
  deriving DecidableEq, Repr

/-- A lexeme without parts. -/
def Match.plain (cut : Cut) : Match :=
  ⟨cut.taken, [], cut.rest⟩

/-- A lexeme that is its own only part. -/
def Match.self (cut : Cut) : Match :=
  ⟨cut.taken, [some cut.taken], cut.rest⟩

/-- Recognises a lexeme of the given kind at the start of a text. -/
def Kind.match? (kind : Kind) (s : List Char) : Option Match :=
  match kind with
  | .indent => some (.self (Lexeme.indent s))
  | .gap => (gap? s).map .plain
  | .lineEnd => (lineEnd? s).map .plain
  | .binaryName => (binaryName? s).map .plain
  | .optionName => (optionName? s).map .self
  | .placeholder => (placeholder? s).map .self
  | .optionUse =>
    (optionUse? s).map fun use => ⟨use.taken, [some use.name, use.value], use.rest⟩
  | .word => (word? s).map .plain
  | .requiredStart => (Cut.mark? ['('] s).map .plain
  | .optionalStart => (Cut.mark? ['['] s).map .plain
  | .requiredEnd => (Cut.mark? [')'] s).map .plain
  | .optionalEnd => (Cut.mark? [']'] s).map .plain
  | .bar => (Cut.mark? ['|'] s).map .plain
  | .ellipsis => (Cut.mark? ['.', '.', '.'] s).map .plain
  | .nameSeparator => (nameSeparator? s).map .plain
  | .descriptionSeparator => (descriptionSeparator? s).map .plain
  | .usageHeader => (usageHeader? s).map .plain

end Synopsis.Lexeme
