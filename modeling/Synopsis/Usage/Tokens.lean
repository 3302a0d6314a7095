import Synopsis.Lexeme.Layout
import Synopsis.Lexeme.Placeholder
import Synopsis.Token

/-!
# The tokens of a usage line

`Token.read?` reads the token at the start of a text.  Of the readings that a
text allows, a structural mark wins over an option, an option over a
placeholder, and a placeholder over a plain word.

`Usage.scan` reads a whole line.  It keeps, for each token, whether there is
a gap before it and what the line has left where the token starts.
-/

namespace Synopsis

open Lexeme

/-! ## One token -/

namespace Token

/-- Reads a structural mark or an ellipsis. -/
def readMark? : List Char → Option (Token × List Char)
  | '(' :: s => some (opening .required none, s)
  | '[' :: s => some (opening .optional none, s)
  | ')' :: s => some (closing .required none, s)
  | ']' :: s => some (closing .optional none, s)
  | '|' :: s => some (bar none none, s)
  | '.' :: '.' :: '.' :: s => some (ellipsis, s)
  | _ => none

/-- Reads an option with the value behind it. -/
def readOption? (s : List Char) : Option (Token × List Char) :=
  (optionUse? s).map fun use =>
    (option (String.ofList use.name) (use.value.map String.ofList), use.rest)

/-- Reads a placeholder that stands on its own. -/
def readPositional? (s : List Char) : Option (Token × List Char) :=
  (placeholder? s).map fun cut => (positional (String.ofList cut.taken), cut.rest)

/-- Reads a plain word. -/
def readWord? (s : List Char) : Option (Token × List Char) :=
  (word? s).map fun cut => (word (String.ofList cut.taken), cut.rest)

/-- Reads the token at the start of a text, and answers with what the token
leaves. -/
def read? (s : List Char) : Option (Token × List Char) :=
  readMark? s <|> readOption? s <|> readPositional? s <|> readWord? s

theorem length_lt_of_readMark? {s rest : List Char} {token : Token}
    (h : readMark? s = some (token, rest)) : rest.length < s.length := by
  unfold readMark? at h
  split at h <;> simp only [Option.some.injEq, Prod.mk.injEq, reduceCtorEq] at h
  all_goals
    obtain ⟨-, rfl⟩ := h
    simp only [List.length_cons]
    omega

/-- A token that is read takes something of the text. -/
theorem length_lt_of_read? {s rest : List Char} {token : Token}
    (h : read? s = some (token, rest)) : rest.length < s.length := by
  simp only [read?, Option.orElse_eq_orElse, Option.orElse_eq_or,
    Option.or_eq_some_iff] at h
  rcases h with h | ⟨_, h | ⟨_, h | ⟨_, h⟩⟩⟩
  · exact length_lt_of_readMark? h
  · obtain ⟨use, huse, h⟩ := Option.map_eq_some_iff.1 h
    obtain ⟨-, rfl⟩ := Prod.mk.inj h
    exact (takes_of_optionUse? huse).rest_length_lt
  · obtain ⟨cut, hcut, h⟩ := Option.map_eq_some_iff.1 h
    obtain ⟨-, rfl⟩ := Prod.mk.inj h
    exact (takes_of_placeholder? hcut).rest_length_lt
  · obtain ⟨cut, hcut, h⟩ := Option.map_eq_some_iff.1 h
    obtain ⟨-, rfl⟩ := Prod.mk.inj h
    exact (takes_of_word? hcut).rest_length_lt

end Token

/-! ## The tokens of a line -/

namespace Usage

/-- A token as it stands in a line. -/
structure ScannedToken where
  token : Token
  /-- Whether there is a gap before the token. -/
  spaced : Bool
  /-- The line from the token on. -/
  tail : List Char
  deriving DecidableEq, Repr

/-- The tokens of a line, and, when something in it cannot be read, the line
from there on. -/
structure Scan where
  tokens : List ScannedToken
  unreadable : Option (List Char)
  deriving DecidableEq, Repr

/-- Reads what is left of a line.  `spaced` says whether there is a gap before
it. -/
def scan (spaced : Bool) (s : List Char) : Scan :=
  let gap := Lexeme.indent s
  if gap.rest.isEmpty then
    ⟨[], none⟩
  else
    match _ : Token.read? gap.rest with
    | none => ⟨[], some gap.rest⟩
    | some (token, rest) =>
      let first := ⟨token, spaced || !gap.taken.isEmpty, gap.rest⟩
      let later := scan false rest
      ⟨first :: later.tokens, later.unreadable⟩
termination_by s.length
decreasing_by
  have hgap : gap.rest.length ≤ s.length := by
    have h : gap.taken ++ gap.rest = s := Cut.run_isOf _ s
    rw [← h, List.length_append]
    omega
  exact Nat.lt_of_lt_of_le (Token.length_lt_of_read? ‹_›) hgap

end Usage

end Synopsis
