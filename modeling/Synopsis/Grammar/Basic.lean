import Synopsis.Token

/-!
# Grammars

A grammar is the token sequence of one invocation form.  It is flat when no
structural token is left in it.
-/

namespace Synopsis

/-- The token sequence of one invocation form. -/
structure Grammar where
  tokens : List Token
  deriving DecidableEq, Repr

namespace Grammar

/-- The grammar without tokens. -/
def empty : Grammar := ⟨[]⟩

/-- The grammar with one more token at its end. -/
def push (g : Grammar) (token : Token) : Grammar :=
  ⟨g.tokens ++ [token]⟩

/-- The grammar with more tokens at its end. -/
def append (g : Grammar) (tokens : List Token) : Grammar :=
  ⟨g.tokens ++ tokens⟩

/-- The number of tokens. -/
def size (g : Grammar) : Nat :=
  g.tokens.length

/-- There is no token. -/
def isEmpty (g : Grammar) : Bool :=
  g.tokens.isEmpty

/-- The token at a position, if the grammar is long enough. -/
def get? (g : Grammar) (position : Nat) : Option Token :=
  g.tokens[position]?

/-- The token at the end. -/
def last? (g : Grammar) : Option Token :=
  g.tokens.getLast?

/-- No structural token is left. -/
def isFlat (g : Grammar) : Bool :=
  !g.tokens.any Token.isStructural

/-- The characters of a grammar, as a usage line has them behind the name of
the program. -/
def chars (g : Grammar) : List Char :=
  g.tokens.flatMap Token.chars

/-- The text of a grammar. -/
def text (g : Grammar) : String :=
  String.ofList g.chars

/-- The grammar without any links. -/
def unlinked (g : Grammar) : Grammar :=
  ⟨g.tokens.map Token.unlinked⟩

end Grammar

end Synopsis
