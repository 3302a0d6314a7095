import Mathlib.Data.List.Basic
import Synopsis.Lexeme.Kind
import Synopsis.Proofs.Reading

/-!
# Patterns

A lexeme can be described by a pattern: classes of characters, word boundaries, one piece behind
another, alternatives and repetitions.  A text may match a pattern in several ways.
`Pattern.ways` lists them in the order in which a matcher that goes back on its decisions tries
them: a repetition goes on as long as it can before it gives pieces back, and an alternative
is tried behind those before it.  The match is the first way (`Pattern.match?`).

The recognisers decide as they go and never list ways.  `match?_optionName`,
`match?_placeholder`, `match?_optionUse` and `match?_word` say that they still answer with
the first way of the patterns of their lexemes, parts included.

Only first ways are computed here (`Pattern.first?`).  `first?_seq` says when a later way of the
first piece comes in: when the piece behind fails after all the ways before.  So where the piece
behind never fails, the first way of the first piece is kept (`first?_seq_of_total`), and a class
that is repeated gives characters back one at a time (`first?_many_seq_cons`).
-/

namespace Synopsis

namespace Lexeme

open Text

/-! ## What the recognisers answer -/

theorem Cut.run1?_cons {p : Char → Bool} {c : Char} (hc : p c = true) (s : List Char) :
    Cut.run1? p (c :: s) = some (Cut.run p (c :: s)) := by
  simp [Cut.run1?, hc]

theorem Cut.run1?_stops {p : Char → Bool} {c : Char} (hc : p c = false) (s : List Char) :
    Cut.run1? p (c :: s) = none := by
  simp [Cut.run1?, hc]

theorem bracketed?_of_ne {c : Char} (hc : c ≠ '<') (s : List Char) :
    bracketed? (c :: s) = none := by
  rw [bracketed?]
  intro _ heq
  exact hc (List.cons.inj heq).1

theorem wordTail_stops {c : Char} (hc : isWordPart c = false) (hdot : c ≠ '.') (s : List Char) :
    wordTail (c :: s) = ⟨[], c :: s⟩ := by
  rw [wordTail]
  · simp [hc]
  · intro _ _ heq
    exact absurd heq hdot

/-- A word goes on behind the run of its first part. -/
theorem wordTail_run (s : List Char) :
    wordTail s =
      (wordTail (Cut.run isWordPart s).rest).after (Cut.run isWordPart s).taken := by
  induction s with
  | nil => rfl
  | cons c s ih =>
    cases hc : isWordPart c with
    | false => simp [Cut.run, Cut.after, hc]
    | true =>
      rw [wordTail_cons hc, ih]
      simp [Cut.run, Cut.after, hc]

theorem optionUse?_valued {s : List Char} {name value : Cut} (hname : optionName? s = some name)
    (hvalue : placeholder? (valueJoint name.rest).rest = some value) :
    optionUse? s =
      some ⟨name.taken, (valueJoint name.rest).taken, some value.taken, value.rest⟩ := by
  simp [optionUse?, hname, hvalue]

theorem optionUse?_alone {s : List Char} {name : Cut} (hname : optionName? s = some name)
    (hvalue : placeholder? (valueJoint name.rest).rest = none) :
    optionUse? s = some ⟨name.taken, [], none, name.rest⟩ := by
  simp [optionUse?, hname, hvalue]

/-! ## Ways to match -/

namespace Match

/-- Takes nothing, and does without `count` parts. -/
def nothing (count : Nat) (s : List Char) : Match :=
  ⟨[], List.replicate count none, s⟩

/-- Two pieces as one, where the second stands right behind the first. -/
def followedBy (m next : Match) : Match :=
  ⟨m.whole ++ next.whole, m.parts ++ next.parts, next.rest⟩

/-- The piece among parts of other alternatives, which it does without. -/
def among (before behind : Nat) (m : Match) : Match :=
  { m with parts := List.replicate before none ++ m.parts ++ List.replicate behind none }

/-- The piece without its parts. -/
def bare (m : Match) : Match :=
  { m with parts := [] }

/-- The piece as the first of its own parts. -/
def asPart (m : Match) : Match :=
  { m with parts := some m.whole :: m.parts }

/-- The character right before what the piece leaves, where `before` is the one right before the
piece. -/
def last (before : Option Char) (m : Match) : Option Char :=
  m.whole.getLast?.or before

theorem nothing_followedBy (s : List Char) : (nothing 0 s).followedBy = id := rfl

theorem last_singleton (before : Option Char) (c : Char) (parts : List (Option (List Char)))
    (s : List Char) : last before ⟨[c], parts, s⟩ = some c := rfl

theorem followedBy_assoc (m next further : Match) :
    (m.followedBy next).followedBy further = m.followedBy (next.followedBy further) := by
  simp [followedBy]

theorem last_followedBy (before : Option Char) (m next : Match) :
    (m.followedBy next).last before = next.last (m.last before) := by
  simp [last, followedBy, List.getLast?_append, Option.or_assoc]

end Match

/-- What a lexeme looks like: a character of a class, a word boundary, one piece behind another,
one of two pieces, a piece or nothing, a piece as often as it stands there, and a piece that is
singled out as a part.  Only pieces that take something are repeated. -/
inductive Pattern
  | char (p : Char → Bool)
  | boundary
  | seq (first second : Pattern)
  | either (first second : Pattern)
  | maybe (body : Pattern)
  | many (body : Pattern)
  | part (body : Pattern)

namespace Pattern

/-- The number of parts that the pattern singles out.  There are none in a repetition. -/
def parts : Pattern → Nat
  | char _ => 0
  | boundary => 0
  | seq first second => first.parts + second.parts
  | either first second => first.parts + second.parts
  | maybe body => body.parts
  | many _ => 0
  | part body => body.parts + 1

/-- The ways to repeat a piece up to `times` times. -/
def repetitions (ways : Option Char → List Char → List Match) :
    Nat → Option Char → List Char → List Match
  | 0, _, s => [.nothing 0 s]
  | times + 1, before, s =>
    ((ways before s).flatMap fun m =>
      (repetitions ways times (m.last before) m.rest).map m.bare.followedBy) ++ [.nothing 0 s]

/-- The ways to match a pattern at the start of a text, the preferred ones first.  `before` is the
character right before the text, if there is any. -/
def ways : Pattern → Option Char → List Char → List Match
  | char _, _, [] => []
  | char p, _, c :: s => if p c then [⟨[c], [], s⟩] else []
  | boundary, before, s =>
    if before.any isWordChar != s.head?.any isWordChar then [.nothing 0 s] else []
  | seq first second, before, s =>
    (first.ways before s).flatMap fun m => (second.ways (m.last before) m.rest).map m.followedBy
  | either first second, before, s =>
    (first.ways before s).map (.among 0 second.parts) ++
      (second.ways before s).map (.among first.parts 0)
  | maybe body, before, s => body.ways before s ++ [.nothing body.parts s]
  | many body, before, s => repetitions body.ways s.length before s
  | part body, before, s => (body.ways before s).map .asPart

/-- The first way to match a pattern behind the character `before`. -/
def first? (pattern : Pattern) (before : Option Char) (s : List Char) : Option Match :=
  (pattern.ways before s).head?

/-- The match of a pattern at the start of a text. -/
def match? (pattern : Pattern) (s : List Char) : Option Match :=
  pattern.first? none s

/-- The character `c`. -/
def mark (c : Char) : Pattern :=
  char (· == c)

/-- A piece once or more often. -/
def more (body : Pattern) : Pattern :=
  seq body (many body)

/-- The characters that may stand between an option name and a value. -/
def isJoint (c : Char) : Bool :=
  c == '=' || c == ' '

/-- `--name`, or `-n`. -/
def optionName : Pattern :=
  part (either
    (seq (mark '-') (seq (mark '-') (more (char isOptionChar))))
    (seq (mark '-') (char fun c => isOptionChar c && c != '-')))

/-- `<name>`, or `NAME` up to a word boundary. -/
def placeholder : Pattern :=
  part (either
    (seq (mark '<') (seq (more (char (· != '>'))) (mark '>')))
    (seq (char Char.isUpper) (seq (many (char isCapitalPart)) boundary)))

/-- An option name, and maybe a placeholder behind an equals sign, a space or nothing. -/
def optionUse : Pattern :=
  seq optionName (maybe (seq (maybe (char isJoint)) placeholder))

/-- Word parts with a dot between each two. -/
def word : Pattern :=
  seq (more (char isWordPart)) (many (seq (mark '.') (more (char isWordPart))))

/-! ## One piece at a time -/

section Pieces

variable (p : Char → Bool) (first second : Pattern) (before : Option Char) (s : List Char)

theorem ways_char_cons (c : Char) :
    (char p).ways before (c :: s) = if p c then [⟨[c], [], s⟩] else [] := rfl

theorem ways_boundary :
    boundary.ways before s =
      if before.any isWordChar != s.head?.any isWordChar then [.nothing 0 s] else [] := rfl

theorem ways_seq :
    (seq first second).ways before s =
      (first.ways before s).flatMap fun m =>
        (second.ways (m.last before) m.rest).map m.followedBy := rfl

theorem ways_either :
    (either first second).ways before s =
      (first.ways before s).map (.among 0 second.parts) ++
        (second.ways before s).map (.among first.parts 0) := rfl

theorem ways_maybe :
    (maybe first).ways before s = first.ways before s ++ [.nothing first.parts s] := rfl

theorem ways_many : (many first).ways before s = repetitions first.ways s.length before s := rfl

theorem ways_part : (part first).ways before s = (first.ways before s).map .asPart := rfl

theorem repetitions_succ (ways : Option Char → List Char → List Match) (times : Nat) :
    repetitions ways (times + 1) before s =
      ((ways before s).flatMap fun m =>
        (repetitions ways times (m.last before) m.rest).map m.bare.followedBy) ++
          [.nothing 0 s] := rfl

end Pieces

/-! ## First ways -/

section First

variable (first second : Pattern) (before : Option Char) (s : List Char)

theorem first?_seq :
    (seq first second).first? before s =
      (first.ways before s).findSome? fun m =>
        (second.first? (m.last before) m.rest).map m.followedBy := by
  simp only [first?, ways_seq, List.head?_flatMap, List.head?_map]

theorem first?_either :
    (either first second).first? before s =
      ((first.first? before s).map (.among 0 second.parts)).or
        ((second.first? before s).map (.among first.parts 0)) := by
  simp only [first?, ways_either, List.head?_append, List.head?_map]

theorem first?_maybe :
    (maybe first).first? before s =
      (first.first? before s).or (some (.nothing first.parts s)) := by
  rw [first?, ways_maybe, List.head?_append]
  rfl

theorem first?_part : (part first).first? before s = (first.first? before s).map .asPart := by
  rw [first?, ways_part, List.head?_map]
  rfl

theorem first?_boundary :
    boundary.first? before s =
      if before.any isWordChar != s.head?.any isWordChar then some (.nothing 0 s) else none := by
  rw [first?, ways_boundary]
  split <;> rfl

theorem first?_char_cons (p : Char → Bool) (c : Char) :
    (char p).first? before (c :: s) = if p c then some ⟨[c], [], s⟩ else none := by
  rw [first?, ways_char_cons]
  split <;> rfl

theorem first?_char_seq_cons (p : Char → Bool) (c : Char) :
    (seq (char p) second).first? before (c :: s) =
      if p c then (second.first? (some c) s).map (Match.followedBy ⟨[c], [], s⟩) else none := by
  rw [first?_seq, ways_char_cons]
  split <;> simp [Match.last_singleton]

theorem first?_mark_seq_cons (d c : Char) :
    (seq (mark d) second).first? before (c :: s) =
      if c = d then (second.first? (some c) s).map (Match.followedBy ⟨[c], [], s⟩) else none := by
  rw [mark, first?_char_seq_cons]
  simp

end First

/-- Where the piece behind never fails, the first way of the piece before it is kept. -/
theorem first?_seq_of_total {second : Pattern}
    (htotal : ∀ before s, second.first? before s ≠ none) (first : Pattern)
    (before : Option Char) (s : List Char) :
    (seq first second).first? before s =
      (first.first? before s).bind fun m =>
        (second.first? (m.last before) m.rest).map m.followedBy := by
  rw [first?_seq, first?]
  cases first.ways before s with
  | nil => rfl
  | cons m later =>
    obtain ⟨next, hnext⟩ := Option.ne_none_iff_exists'.1 (htotal (m.last before) m.rest)
    simp [hnext]

theorem ways_seq_assoc (first second third : Pattern) (before : Option Char) (s : List Char) :
    (seq (seq first second) third).ways before s =
      (seq first (seq second third)).ways before s := by
  simp only [ways_seq, List.flatMap_assoc, List.flatMap_map, List.map_flatMap, List.map_map,
    Match.last_followedBy]
  refine List.flatMap_congr fun m _ => List.flatMap_congr fun next _ => ?_
  refine List.map_congr_left fun further _ => ?_
  exact Match.followedBy_assoc m next further

theorem first?_seq_assoc (first second third : Pattern) (before : Option Char) (s : List Char) :
    (seq (seq first second) third).first? before s =
      (seq first (seq second third)).first? before s := by
  rw [first?, ways_seq_assoc, first?]

theorem first?_behind_nothing (second : Pattern) (before : Option Char) (s : List Char) :
    (second.first? ((Match.nothing 0 s).last before) (Match.nothing 0 s).rest).map
      (Match.nothing 0 s).followedBy = second.first? before s := by
  rw [Match.nothing_followedBy, Option.map_id]
  rfl

/-- A character that may be left out is taken first, and left out if the piece behind it
fails. -/
theorem first?_maybe_seq_cons (p : Char → Bool) (second : Pattern) (before : Option Char)
    (c : Char) (s : List Char) :
    (seq (maybe (char p)) second).first? before (c :: s) =
      (if p c then (second.first? (some c) s).map (Match.followedBy ⟨[c], [], s⟩) else none).or
        (second.first? before (c :: s)) := by
  rw [first?_seq, ways_maybe, ways_char_cons, List.findSome?_append, List.findSome?_singleton]
  refine congr (congrArg Option.or ?_) (first?_behind_nothing second before (c :: s))
  split
  · rw [List.findSome?_singleton, Match.last_singleton]
  · rfl

/-! ## Repeated pieces -/

theorem repetitions_ne_nil (ways : Option Char → List Char → List Match) (times : Nat)
    (before : Option Char) (s : List Char) : repetitions ways times before s ≠ [] := by
  cases times with
  | zero => exact List.cons_ne_nil _ _
  | succ times => simp [repetitions_succ]

/-- A repetition can always do without its piece. -/
theorem first?_many_ne_none (body : Pattern) (before : Option Char) (s : List Char) :
    (many body).first? before s ≠ none := by
  rw [first?, ways_many]
  simpa using repetitions_ne_nil body.ways s.length before s

/-- The first way to repeat a piece repeats its first way. -/
theorem head?_repetitions_succ (body : Pattern) (times : Nat) (before : Option Char)
    (s : List Char) :
    (repetitions body.ways (times + 1) before s).head? =
      match body.first? before s with
      | some m => (repetitions body.ways times (m.last before) m.rest).head?.map m.bare.followedBy
      | none => some (.nothing 0 s) := by
  rw [repetitions_succ, first?]
  cases body.ways before s with
  | nil => rfl
  | cons m later =>
    have hne : (repetitions body.ways times (m.last before) m.rest).map m.bare.followedBy ≠ [] := by
      simpa using repetitions_ne_nil body.ways times (m.last before) m.rest
    rw [List.flatMap_cons, List.append_assoc, List.head?_append_of_ne_nil _ hne, List.head?_map]
    rfl

section Classes

variable (p : Char → Bool) (before : Option Char) (s : List Char)

theorem ways_many_char_nil : (many (char p)).ways before [] = [.nothing 0 []] := rfl

theorem ways_many_char_cons (c : Char) :
    (many (char p)).ways before (c :: s) =
      (if p c then ((many (char p)).ways (some c) s).map (Match.followedBy ⟨[c], [], s⟩) else []) ++
        [.nothing 0 (c :: s)] := by
  rw [ways_many, List.length_cons, repetitions_succ, ways_char_cons, ways_many]
  split <;> simp [Match.bare, Match.last_singleton]

end Classes

theorem first?_many_seq_nil (p : Char → Bool) (second : Pattern) (before : Option Char) :
    (seq (many (char p)) second).first? before [] = second.first? before [] := by
  rw [first?_seq, ways_many_char_nil, List.findSome?_singleton, first?_behind_nothing]

/-- A class that is repeated goes on as long as it can, and gives characters back until what
stands behind it matches. -/
theorem first?_many_seq_cons (p : Char → Bool) (second : Pattern) (before : Option Char)
    (c : Char) (s : List Char) :
    (seq (many (char p)) second).first? before (c :: s) =
      (if p c then
        ((seq (many (char p)) second).first? (some c) s).map (Match.followedBy ⟨[c], [], s⟩)
      else none).or (second.first? before (c :: s)) := by
  -- What stands behind does not tell a repetition from its first character and the others.
  have hlonger : ∀ m : Match,
      (second.first? ((Match.followedBy ⟨[c], [], s⟩ m).last before) m.rest).map
        (Match.followedBy ⟨[c], [], s⟩ m).followedBy =
      ((second.first? (m.last (some c)) m.rest).map m.followedBy).map
        (Match.followedBy ⟨[c], [], s⟩) := by
    intro m
    rw [Match.last_followedBy, Match.last_singleton, Option.map_map]
    exact congrArg (Option.map · _) (funext fun _ => Match.followedBy_assoc _ _ _)
  rw [first?_seq, ways_many_char_cons, List.findSome?_append, List.findSome?_singleton]
  refine congr (congrArg Option.or ?_) (first?_behind_nothing second before (c :: s))
  split
  · rw [List.findSome?_map, first?_seq, List.map_findSome?]
    exact congrArg (List.findSome? · _) (funext hlonger)
  · rfl

/-! ## Runs of a class -/

section Classes

variable (p : Char → Bool) (before : Option Char) (s : List Char)

theorem first?_many_char : (many (char p)).first? before s = some (.plain (Cut.run p s)) := by
  induction s generalizing before with
  | nil => rfl
  | cons c s ih =>
    rw [first?, ways_many_char_cons, List.head?_append]
    cases hc : p c with
    | true =>
      have hhead : ((many (char p)).ways (some c) s).head? = _ := ih (some c)
      simp [hhead, Match.followedBy, Match.plain, Cut.run, hc]
    | false => simp [Match.nothing, Match.plain, Cut.run, hc]

theorem first?_more_char :
    (more (char p)).first? before s = (Cut.run1? p s).map .plain := by
  rw [more, first?_seq_of_total (first?_many_ne_none _)]
  cases s with
  | nil => rfl
  | cons c s =>
    rw [first?_char_cons]
    cases hc : p c with
    | true =>
      rw [Cut.run1?_cons hc]
      simp [first?_many_char, Match.followedBy, Match.plain, Cut.run, hc]
    | false =>
      rw [Cut.run1?_stops hc]
      rfl

/-- Where a character of the class cannot start what stands behind, nothing is given back. -/
theorem first?_run_seq {second : Pattern}
    (hstart : ∀ before c s, p c = true → second.first? before (c :: s) = none) :
    (seq (many (char p)) second).first? before s =
      (second.first? ((Match.plain (Cut.run p s)).last before) (Cut.run p s).rest).map
        (Match.plain (Cut.run p s)).followedBy := by
  induction s generalizing before with
  | nil =>
    rw [first?_many_seq_nil]
    exact (congrFun Option.map_id (second.first? before [])).symm
  | cons c s ih =>
    rw [first?_many_seq_cons]
    cases hc : p c with
    | true =>
      have hlonger : Cut.run p (c :: s) = (Cut.run p s).after [c] := by
        simp [Cut.run, Cut.after, hc]
      have hlast : (Match.plain ((Cut.run p s).after [c])).last before =
          (Match.plain (Cut.run p s)).last (some c) :=
        Match.last_followedBy before ⟨[c], [], s⟩ (.plain (Cut.run p s))
      rw [if_pos rfl, ih, hstart before c s hc, Option.or_none, Option.map_map, hlonger, hlast]
      rfl
    | false =>
      have hempty : Cut.run p (c :: s) = ⟨[], c :: s⟩ := by simp [Cut.run, hc]
      rw [hempty]
      exact (congrFun Option.map_id (second.first? before (c :: s))).symm

end Classes

/-! ## Names and placeholders -/

section Recognised

variable (before : Option Char) (s : List Char)

theorem first?_optionName : optionName.first? before s = (optionName? s).map .self := by
  rw [optionName, first?_part, first?_either]
  cases s with
  | nil => rfl
  | cons c s =>
    rw [first?_mark_seq_cons, first?_mark_seq_cons]
    by_cases hdash : c = '-'
    · subst hdash
      rw [if_pos rfl, if_pos rfl]
      cases s with
      | nil => rfl
      | cons d s =>
        rw [first?_mark_seq_cons, first?_char_cons]
        by_cases hlong : d = '-'
        · subst hlong
          rw [if_pos rfl, first?_more_char, optionName?]
          cases Cut.run1? isOptionChar s <;> rfl
        · have hshort : (d != '-') = true := by simpa using hlong
          rw [if_neg hlong, optionName?_one_dash hlong, hshort]
          cases isOptionChar d <;> rfl
    · rw [if_neg hdash, if_neg hdash, optionName?_of_ne hdash]
      rfl

theorem first?_bracketed :
    (seq (mark '<') (seq (more (char (· != '>'))) (mark '>'))).first? before s =
      (bracketed? s).map .plain := by
  have hclosing : ∀ before c s, (c != '>') = true → (mark '>').first? before (c :: s) = none := by
    intro before c s hc
    rw [mark, first?_char_cons, if_neg (by simpa using hc)]
  cases s with
  | nil => rfl
  | cons c s =>
    rw [first?_mark_seq_cons, more, first?_seq_assoc]
    by_cases hangle : c = '<'
    · subst hangle
      rw [if_pos rfl]
      cases s with
      | nil => rfl
      | cons d s =>
        rw [first?_char_seq_cons, bracketed?]
        cases hd : d != '>' with
        | false => simp [Cut.run, hd]
        | true =>
          rw [if_pos rfl, first?_run_seq _ _ _ hclosing]
          simp only [Cut.run, List.takeWhile_cons_of_pos, List.dropWhile_cons_of_pos, hd]
          cases hrest : s.dropWhile (· != '>') with
          | nil => rfl
          | cons e rest =>
            have he : (e != '>') = false := head?_dropWhile s e (by rw [hrest]; rfl)
            obtain rfl : e = '>' := by simpa using he
            rw [mark, first?_char_cons, if_pos (beq_self_eq_true _)]
            rfl
    · rw [if_neg hangle, bracketed?_of_ne hangle]
      rfl

theorem first?_capitalTail (last : Char) :
    (seq (many (char isCapitalPart)) boundary).first? (some last) s =
      (capitalTail? last s).map .plain := by
  induction s generalizing last with
  | nil =>
    rw [first?_many_seq_nil, first?_boundary, capitalTail?]
    cases hlast : isWordChar last with
    | true => simp [hlast, Match.nothing, Match.plain]
    | false => simp [hlast]
  | cons c s ih =>
    have hhere : boundary.first? (some last) (c :: s) =
        (if isWordChar last != isWordChar c then some ⟨[], c :: s⟩ else none).map .plain := by
      rw [first?_boundary, Option.any_some, List.head?_cons, Option.any_some]
      split <;> rfl
    rw [first?_many_seq_cons, ih, hhere, capitalTail?_cons]
    cases isCapitalPart c with
    | true => cases capitalTail? c s <;> rfl
    | false => rfl

theorem first?_capitalised :
    (seq (char Char.isUpper) (seq (many (char isCapitalPart)) boundary)).first? before s =
      (capitalised? s).map .plain := by
  cases s with
  | nil => rfl
  | cons c s =>
    rw [first?_char_seq_cons, first?_capitalTail, capitalised?]
    split
    · rw [Option.map_map, Option.map_map]
      rfl
    · rfl

theorem first?_placeholder : placeholder.first? before s = (placeholder? s).map .self := by
  rw [placeholder, first?_part, first?_either, first?_bracketed, first?_capitalised, placeholder?]
  cases bracketed? s with
  | some cut => rfl
  | none => cases capitalised? s <;> rfl

/-- No placeholder starts like a joint, so one behind a joint is the only one there can be. -/
theorem first?_value :
    (seq (maybe (char isJoint)) placeholder).first? before s =
      (placeholder? (valueJoint s).rest).map fun value =>
        ⟨(valueJoint s).taken ++ value.taken, [some value.taken], value.rest⟩ := by
  cases s with
  | nil => rfl
  | cons c s =>
    rw [first?_maybe_seq_cons, first?_placeholder, first?_placeholder]
    by_cases hequals : c = '='
    · subst hequals
      have hnone : placeholder? ('=' :: s) = none := rfl
      rw [hnone, Option.map_none, Option.or_none, if_pos (by decide), Option.map_map]
      rfl
    · by_cases hspace : c = ' '
      · subst hspace
        have hnone : placeholder? (' ' :: s) = none := rfl
        rw [hnone, Option.map_none, Option.or_none, if_pos (by decide), Option.map_map]
        rfl
      · rw [if_neg (by simp [isJoint, hequals, hspace]), Option.none_or,
          Token.valueJoint_of_ne hequals hspace]
        rfl

theorem first?_optionUse :
    optionUse.first? before s =
      (optionUse? s).map fun use => ⟨use.taken, [some use.name, use.value], use.rest⟩ := by
  have htotal : ∀ before s,
      (maybe (seq (maybe (char isJoint)) placeholder)).first? before s ≠ none := by
    intro before s
    simp [first?_maybe]
  have hparts : (seq (maybe (char isJoint)) placeholder).parts = 1 := rfl
  rw [optionUse, first?_seq_of_total htotal, first?_optionName]
  cases hname : optionName? s with
  | none =>
    rw [Token.optionUse?_eq_none_iff.2 hname]
    rfl
  | some name =>
    have hrest : (Match.self name).rest = name.rest := rfl
    rw [Option.map_some, Option.bind_some, first?_maybe, first?_value, hrest]
    cases hvalue : placeholder? (valueJoint name.rest).rest with
    | some value =>
      rw [optionUse?_valued hname hvalue]
      simp [Match.followedBy, Match.self, OptionUse.taken]
    | none =>
      rw [optionUse?_alone hname hvalue]
      simp [Match.followedBy, Match.self, Match.nothing, OptionUse.taken, hparts]

end Recognised

/-! ## Words -/

/-- With enough repetitions, dots and the runs behind them are taken as a word takes them. -/
theorem head?_repetitions_dotted (times : Nat) (before : Option Char) (s : List Char)
    (htimes : s.length ≤ times) (hhead : ∀ c ∈ s.head?, isWordPart c = false) :
    (repetitions (seq (mark '.') (more (char isWordPart))).ways times before s).head? =
      some (.plain (wordTail s)) := by
  -- Each repetition takes a dot and the run behind it, so there are as many left as characters.
  induction times generalizing before s with
  | zero =>
    obtain rfl := List.eq_nil_of_length_eq_zero (Nat.le_zero.1 htimes)
    rfl
  | succ times ih =>
    rw [head?_repetitions_succ]
    cases s with
    | nil => rfl
    | cons c s =>
      rw [first?_mark_seq_cons, first?_more_char]
      by_cases hdot : c = '.'
      · subst hdot
        rw [if_pos rfl]
        cases s with
        | nil => rfl
        | cons d s =>
          cases hd : isWordPart d with
          | false =>
            rw [Cut.run1?_stops hd, wordTail, if_neg (by simp [hd])]
            rfl
          | true =>
            have hrun := Cut.run1?_cons hd s
            have hless : (Cut.run isWordPart (d :: s)).rest.length ≤ times := by
              have htaken := (Cut.takes_of_run1? hrun).rest_length_lt
              simp only [List.length_cons] at htimes htaken
              omega
            rw [hrun, wordTail_dot_cons hd, wordTail_run]
            show Option.map _ (repetitions _ times _ (Cut.run isWordPart (d :: s)).rest).head? = _
            rw [ih _ _ hless (head?_dropWhile _)]
            rfl
      · rw [if_neg hdot, wordTail_stops (hhead c rfl) hdot]
        rfl

theorem first?_many_dotted {s : List Char} (hhead : ∀ c ∈ s.head?, isWordPart c = false)
    (before : Option Char) :
    (many (seq (mark '.') (more (char isWordPart)))).first? before s =
      some (.plain (wordTail s)) :=
  head?_repetitions_dotted s.length before s (Nat.le_refl _) hhead

/-- A word is the longest run of word parts, with a dot and another run behind it as often as there
are any. -/
theorem first?_word (before : Option Char) (s : List Char) :
    word.first? before s = (word? s).map .plain := by
  rw [word, first?_seq_of_total (first?_many_ne_none _), first?_more_char]
  cases s with
  | nil => rfl
  | cons c s =>
    cases hc : isWordPart c with
    | false =>
      rw [Cut.run1?_stops hc, word?, if_neg (by simp [hc])]
      rfl
    | true =>
      rw [Cut.run1?_cons hc, word?, if_pos hc, ← wordTail_cons hc, wordTail_run]
      have hhead : ∀ d ∈ (Cut.run isWordPart (c :: s)).rest.head?, isWordPart d = false :=
        head?_dropWhile (c :: s)
      simp only [Option.map_some, Option.bind_some, Match.plain, first?_many_dotted hhead]
      rfl

end Pattern

/-! ## The recognisers answer with the first way -/

theorem match?_optionName (s : List Char) :
    Pattern.optionName.match? s = Kind.optionName.match? s :=
  Pattern.first?_optionName none s

theorem match?_placeholder (s : List Char) :
    Pattern.placeholder.match? s = Kind.placeholder.match? s :=
  Pattern.first?_placeholder none s

theorem match?_optionUse (s : List Char) :
    Pattern.optionUse.match? s = Kind.optionUse.match? s :=
  Pattern.first?_optionUse none s

theorem match?_word (s : List Char) : Pattern.word.match? s = Kind.word.match? s :=
  Pattern.first?_word none s

end Lexeme

end Synopsis
