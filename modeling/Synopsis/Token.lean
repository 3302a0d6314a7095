/-!
# Tokens of a usage line

A usage line is a flat sequence of tokens.  Four kinds of tokens are elements
or stand between them; the halves of groups and the bars of alternations give
the line its structure.  A structural token can carry links, which are
positions in the same sequence.
-/

namespace Synopsis

/-- The two kinds of groups: `( … )` must be given, `[ … ]` may be left out. -/
inductive GroupKind
  | required
  | optional
  deriving DecidableEq, Repr

/-- A token of a usage line.

* `word`, `option` and `positional` are the elements; an option has a value
  when the line writes one behind its name.
* `separator` is space that has to stand between two elements.
* `ellipsis` says that what stands before it can be repeated.
* `opening` and `closing` are the halves of a group; `pair` is the position of
  the other half.
* `bar` separates two alternatives; `start` is the position of the opening
  half of the group around it, and `next` the position of the next bar of the
  same group, or of its closing half behind the last one. -/
inductive Token
  | separator
  | word (name : String)
  | option (name : String) (value : Option String)
  | positional (placeholder : String)
  | opening (kind : GroupKind) (pair : Option Nat)
  | closing (kind : GroupKind) (pair : Option Nat)
  | bar (start next : Option Nat)
  | ellipsis
  deriving DecidableEq, Repr

namespace Token

/-- The structural tokens, which expansion removes. -/
def isStructural : Token → Bool
  | opening _ _ | closing _ _ | bar _ _ => true
  | _ => false

/-- The space that has to stand between two elements. -/
def isSeparator : Token → Bool
  | separator => true
  | _ => false

/-- The tokens that stand for something the user types. -/
def isElement : Token → Bool
  | word _ | option _ _ | positional _ => true
  | _ => false

/-- The characters of a token in a usage line. -/
def chars : Token → List Char
  | separator => [' ']
  | word name => name.toList
  | option name none => name.toList
  | option name (some value) => name.toList ++ '=' :: value.toList
  | positional placeholder => placeholder.toList
  | opening .required _ => ['(']
  | opening .optional _ => ['[']
  | closing .required _ => [')']
  | closing .optional _ => [']']
  | bar _ _ => ['|']
  | ellipsis => ['.', '.', '.']

/-- The text of a token in a usage line. -/
def text (token : Token) : String :=
  String.ofList token.chars

/-- A half of a group, linked to its other half. -/
def withPair (token : Token) (other : Nat) : Token :=
  match token with
  | opening kind _ => opening kind (some other)
  | closing kind _ => closing kind (some other)
  | _ => token

/-- A bar, linked to what ends the alternative behind it. -/
def withNext (token : Token) (position : Nat) : Token :=
  match token with
  | bar start _ => bar start (some position)
  | _ => token

/-- The token without its links. -/
def unlinked : Token → Token
  | opening kind _ => opening kind none
  | closing kind _ => closing kind none
  | bar _ _ => bar none none
  | token => token

end Token

end Synopsis
