import Synopsis.Grammar.Basic

/-!
# Balance

Balancing checks that the groups of a grammar nest, and links its structural
tokens: each half of a group to the other one, and the bars of each
alternation into a chain.

One pass from left to right does both.  It keeps a frame for every group that
is open.  A fault ends the pass, and the links set before the fault stay.

`Grammar.link` is the pass with all that it leaves behind; `Grammar.balance`
is its answer.
-/

namespace Synopsis

/-! ## Faults -/

/-- Why a grammar cannot be balanced or expanded.  Positions are those of its
tokens. -/
inductive Fault
  /-- A closing half while no group is open. -/
  | unbalancedEnd (position : Nat)
  /-- A closing half of the other kind than the innermost open group. -/
  | mismatchedGroup (opening closing : Nat)
  /-- The end of the grammar while a group is open. -/
  | unclosedGroup
  /-- More variants than the limit allows. -/
  | tooManyVariants (limit : Nat)
  deriving DecidableEq, Repr

/-- The message that reports a fault. -/
def Fault.message : Fault → String
  | unbalancedEnd position =>
    "unbalanced group end at position " ++ toString position
  | mismatchedGroup opening closing =>
    "opened group at position " ++ toString opening ++ " does not match " ++
      toString closing
  | unclosedGroup => "one or more required or optional groups is not closed"
  | tooManyVariants limit =>
    "expansion exceeds the limit of " ++ toString limit ++ " variants"

/-! ## The pass -/

/-- An open group: where it opens, its kind, and the last bar seen directly
inside it. -/
structure Frame where
  opening : Nat
  kind : GroupKind
  lastBar : Option Nat
  deriving DecidableEq, Repr

/-- The state of the pass: the tokens with the links set so far, the open
groups from the innermost outwards, and the last bar outside all groups. -/
structure Linking where
  tokens : List Token
  frames : List Frame
  topBar : Option Nat
  deriving DecidableEq, Repr

namespace Linking

/-- Links the last bar of a chain, if there is one, to a position. -/
def chain (tokens : List Token) (lastBar : Option Nat) (position : Nat) :
    List Token :=
  match lastBar with
  | none => tokens
  | some bar => tokens.modify bar (·.withNext position)

/-- Links the two halves of a group to each other. -/
def join (tokens : List Token) (opening closing : Nat) : List Token :=
  (tokens.modify opening (·.withPair closing)).modify closing (·.withPair opening)

/-- Moves the pass over the token at `position`. -/
def step (s : Linking) (token : Token) (position : Nat) : Except Fault Linking :=
  match token with
  | .opening kind _ => .ok { s with frames := ⟨position, kind, none⟩ :: s.frames }
  | .closing kind _ =>
    match s.frames with
    | [] => .error (.unbalancedEnd position)
    | frame :: outer =>
      if frame.kind = kind then
        let joined := join s.tokens frame.opening position
        .ok { s with tokens := chain joined frame.lastBar position, frames := outer }
      else
        .error (.mismatchedGroup frame.opening position)
  | .bar _ _ =>
    match s.frames with
    | [] =>
      let chained := chain s.tokens s.topBar position
      .ok { s with
        tokens := chained.set position (.bar none none), topBar := some position }
    | frame :: outer =>
      let chained := chain s.tokens frame.lastBar position
      .ok { s with
        tokens := chained.set position (.bar (some frame.opening) none)
        frames := { frame with lastBar := some position } :: outer }
  | _ => .ok s

/-- Moves the pass over the tokens from `position` on, up to the end or to the
first fault. -/
def run (s : Linking) (position : Nat) : List Token → Linking × Option Fault
  | [] => (s, if s.frames.isEmpty then none else some .unclosedGroup)
  | token :: rest =>
    match s.step token position with
    | .ok s => s.run (position + 1) rest
    | .error fault => (s, some fault)

end Linking

namespace Grammar

/-- Links the grammar up to its first fault, if it has one. -/
def link (g : Grammar) : Grammar × Option Fault :=
  let (s, fault) := Linking.run ⟨g.tokens, [], none⟩ 0 g.tokens
  (⟨s.tokens⟩, fault)

/-- The linked grammar, or the first fault. -/
def balance (g : Grammar) : Except Fault Grammar :=
  match g.link with
  | (linked, none) => .ok linked
  | (_, some fault) => .error fault

end Grammar

end Synopsis
