import Mathlib.Data.List.Chain
import Synopsis.Proofs.Sections

/-!
# The lines of each form

The lines of a section that are not blank fall into blocks, one for each form.  The first of
them opens a block, and so does each later one that starts with the same name (`blocks`).
The tokens of a block are those of its lines, one line behind the other.

A block is `Accepted` when each of its lines can be scanned to its end and its tokens are well
placed.  `failures` lists everything that is wrong with a block, in the order it is read.  The
list is empty exactly when the block is accepted (`failures_eq_nil_iff`).
-/

namespace Synopsis

open Lexeme Text

namespace Usage

/-! ## Blocks of lines -/

/-- The part of a line that has tokens of a form. -/
structure Part where
  line : SourceLine
  /-- Whether there is a gap before it. -/
  spaced : Bool
  tail : List Char

namespace Part

/-- The line that opens a form, behind the name of the program. -/
def opening (line : SourceLine) : Part :=
  ⟨line, false, ((binaryName? (indent line.text).rest).map Cut.rest).getD []⟩

/-- A further line of a form, behind its indentation. -/
def further (line : SourceLine) : Part :=
  ⟨line, true, (indent line.text).rest⟩

/-- The part, read token by token (`scan_of_read`) up to its end (`scan_of_layout`) or to where
no token can be read (`scan_of_unreadable`). -/
def scan (part : Part) : Scan :=
  Usage.scan part.spaced part.tail

def tokens (part : Part) : List Token :=
  part.scan.tokens.map (·.token)

end Part

/-- The name that a line starts with behind its indentation. -/
def startName? (line : SourceLine) : Option (List Char) :=
  (binaryName? (indent line.text).rest).map Cut.taken

/-- A block is a line with the lines behind it, up to the next one that starts with `name`. -/
def blocksAt (name : Option (List Char)) : List SourceLine → List (List Part)
  | [] => []
  | first :: later =>
    (.opening first :: (later.takeWhile (startName? · ≠ name)).map .further) ::
      blocksAt name (later.dropWhile (startName? · ≠ name))
termination_by lines => lines.length
decreasing_by
  have hle := (List.dropWhile_sublist (l := later) (startName? · ≠ name)).length_le
  simp only [List.length_cons]
  omega

/-- The first of some lines opens a block that goes on up to the next line with the name. -/
theorem blocksAt_cons (name : Option (List Char)) (first : SourceLine)
    (later : List SourceLine) :
    ∃ more rest, later = more ++ rest ∧ (∀ line ∈ more, startName? line ≠ name) ∧
      (∀ line ∈ rest.head?, startName? line = name) ∧
        blocksAt name (first :: later) =
          (.opening first :: more.map .further) :: blocksAt name rest := by
  refine ⟨later.takeWhile (startName? · ≠ name), later.dropWhile (startName? · ≠ name),
    List.takeWhile_append_dropWhile.symm, ?_, ?_, by rw [blocksAt]⟩
  · intro line hline
    simpa using List.all_eq_true.1 List.all_takeWhile line hline
  · intro line hline
    have hhead := List.head?_dropWhile_not (startName? · ≠ name) later
    rw [Option.mem_def.1 hline] at hhead
    simpa using hhead

/-- The lines that are not blank, with their numbers in the section. -/
def filled (ls : List (List Char)) : List SourceLine :=
  (SourceLine.ofLines ls).filter (!·.text.all isLayout)

/-- The blocks of a section. -/
def blocks (text : String) : List (List Part) :=
  match filled (Text.lines text.toList) with
  | [] => []
  | first :: later => blocksAt (startName? first) (first :: later)

/-- There is a block, and its first line starts with a name. -/
def Named (bs : List (List Part)) : Prop :=
  ∃ block ∈ bs.head?, ∃ part ∈ block.head?, (startName? part.line).isSome

/-! ## Accepted blocks -/

/-- The second of two tokens lacks what it needs before it. -/
def clash : Token → Token → Bool
  | .opening _ _, .closing _ _ | .opening _ _, .bar _ _ | .opening _ _, .ellipsis => true
  | .bar _ _, .closing _ _ | .bar _ _, .bar _ _ | .bar _ _, .ellipsis => true
  | .ellipsis, .ellipsis => true
  | _, _ => false

/-- The tokens of a form are well placed. -/
structure WellPlaced (ts : List Token) : Prop where
  no_bar_first : ∀ start next, ts.head? ≠ some (.bar start next)
  no_ellipsis_first : ts.head? ≠ some .ellipsis
  no_bar_last : ∀ start next, ts.getLast? ≠ some (.bar start next)
  pairs : ts.IsChain fun a b => clash a b = false

/-- All lines of a block are scanned to their ends, and its tokens are well placed. -/
structure Accepted (block : List Part) : Prop where
  readable : ∀ part ∈ block, part.scan.unreadable = none
  placed : WellPlaced (block.flatMap Part.tokens)

/-! ## What is wrong with a block -/

/-- The misplaced tokens of a line, in the order they are read. -/
def misplacements (line : SourceLine) : Option Token → List ScannedToken → List ParseFailure
  | _, [] => []
  | previous, x :: xs =>
    ((misplaced? previous x.token).map (line.failure · x.tail)).toList ++
      misplacements line (some x.token) xs

/-- What is wrong inside a line behind the token `previous`: its misplaced tokens, and the
text behind them that cannot be read. -/
def Part.failures (previous : Option Token) (part : Part) : List ParseFailure :=
  misplacements part.line previous part.scan.tokens ++
    (part.scan.unreadable.map (part.line.failure .unreadable)).toList

/-- What is wrong inside the lines behind `previous`, one line behind the other. -/
def insideFailures : Option Token → List Part → List ParseFailure
  | _, [] => []
  | previous, part :: more =>
    part.failures previous ++ insideFailures (lastOf previous part.scan.tokens) more

/-- What is wrong when this line ends a form whose last token is `last`. -/
def endFailure? (line : SourceLine) (last : Option Token) : Option ParseFailure :=
  match last with
  | some (.bar _ _) => some (line.failure .emptyAlternative [])
  | _ => none

/-- All that is wrong with a block, in the order it is read: inside its lines, and at its
end. -/
def failures (block : List Part) : List ParseFailure :=
  insideFailures none block ++
    (block.getLast?.bind fun part =>
      endFailure? part.line (block.flatMap Part.tokens).getLast?).toList

/-- The failure of a section that does not name its program. -/
def missingName (text : String) : ParseFailure :=
  match filled (Text.lines text.toList) with
  | [] => unnamedFailure (Text.lines text.toList)
  | first :: _ => first.failure .unnamed (indent first.text).rest

/-! ## Nothing is wrong -/

theorem clash_eq_false_iff {previous next : Token} :
    clash previous next = false ↔ misplaced? (some previous) next = none := by
  cases previous <;> cases next <;> simp [clash, misplaced?]

theorem misplaced?_none_eq_none_iff {t : Token} :
    misplaced? none t = none ↔ (∀ start next, t ≠ .bar start next) ∧ t ≠ .ellipsis := by
  cases t <;> simp [misplaced?]

theorem fits_behind_iff {previous : Token} {xs : List ScannedToken} :
    Fits (some previous) xs ↔
      (previous :: xs.map (·.token)).IsChain fun a b => clash a b = false := by
  induction xs generalizing previous with
  | nil => simp [Fits.nil]
  | cons x xs ih =>
    rw [List.map_cons, List.isChain_cons_cons, ← ih, clash_eq_false_iff]
    constructor
    · intro h
      cases h with
      | cons hfit hlater => exact ⟨hfit, hlater⟩
    · intro h
      exact .cons h.1 h.2

/-- The tokens fit at the start of a form when none of them lacks what it needs before it. -/
theorem fits_iff {xs : List ScannedToken} :
    Fits none xs ↔
      (∀ start next, (xs.map (·.token)).head? ≠ some (.bar start next)) ∧
        (xs.map (·.token)).head? ≠ some .ellipsis ∧
          (xs.map (·.token)).IsChain fun a b => clash a b = false := by
  cases xs with
  | nil => simp [Fits.nil]
  | cons x xs =>
    rw [List.map_cons, List.head?_cons, ← fits_behind_iff]
    constructor
    · intro h
      cases h with
      | cons hfit hlater =>
        obtain ⟨hbar, hellipsis⟩ := misplaced?_none_eq_none_iff.1 hfit
        exact ⟨fun start next h => hbar start next (Option.some.inj h),
          fun h => hellipsis (Option.some.inj h), hlater⟩
    · intro h
      obtain ⟨hbar, hellipsis, hlater⟩ := h
      refine .cons (misplaced?_none_eq_none_iff.2 ⟨?_, ?_⟩) hlater
      · intro start next h
        exact hbar start next (congrArg some h)
      · intro h
        exact hellipsis (congrArg some h)

theorem misplacements_eq_nil_iff {line : SourceLine} {previous : Option Token}
    {xs : List ScannedToken} : misplacements line previous xs = [] ↔ Fits previous xs := by
  induction xs generalizing previous with
  | nil => simp [misplacements, Fits.nil]
  | cons x xs ih =>
    rw [misplacements, List.append_eq_nil_iff, ih, Option.toList_eq_nil_iff,
      Option.map_eq_none_iff]
    constructor
    · intro h
      exact .cons h.1 h.2
    · intro h
      cases h with
      | cons hfit hlater => exact ⟨hfit, hlater⟩

theorem insideFailures_eq_nil_iff {previous : Option Token} {parts : List Part} :
    insideFailures previous parts = [] ↔
      (∀ part ∈ parts, part.scan.unreadable = none) ∧
        Fits previous (parts.flatMap (·.scan.tokens)) := by
  induction parts generalizing previous with
  | nil => simp [insideFailures, Fits.nil]
  | cons part more ih =>
    rw [insideFailures, List.append_eq_nil_iff, Part.failures, List.append_eq_nil_iff,
      misplacements_eq_nil_iff, ih, List.flatMap_cons, fits_append_iff, List.forall_mem_cons,
      Option.toList_eq_nil_iff, Option.map_eq_none_iff]
    constructor
    · intro ⟨⟨hfits, hread⟩, hreads, hlater⟩
      exact ⟨⟨hread, hreads⟩, hfits, hlater⟩
    · intro ⟨⟨hread, hreads⟩, hfits, hlater⟩
      exact ⟨⟨hfits, hread⟩, hreads, hlater⟩

theorem endFailure?_eq_none_iff {line : SourceLine} {last : Option Token} :
    endFailure? line last = none ↔ ∀ start next, last ≠ some (.bar start next) := by
  unfold endFailure?
  split <;> simp_all

theorem map_flatMap_tokens (parts : List Part) :
    (parts.flatMap (·.scan.tokens)).map (·.token) = parts.flatMap Part.tokens := by
  rw [List.map_flatMap]
  rfl

/-- Nothing is wrong with a block exactly when it is accepted. -/
theorem failures_eq_nil_iff {block : List Part} : failures block = [] ↔ Accepted block := by
  have hend : (block.getLast?.bind fun part =>
      endFailure? part.line (block.flatMap Part.tokens).getLast?) = none ↔
        ∀ start next, (block.flatMap Part.tokens).getLast? ≠ some (.bar start next) := by
    cases hlast : block.getLast? with
    | none =>
      obtain rfl := List.getLast?_eq_none_iff.1 hlast
      simp
    | some last => exact endFailure?_eq_none_iff
  rw [failures, List.append_eq_nil_iff, insideFailures_eq_nil_iff, fits_iff,
    map_flatMap_tokens, Option.toList_eq_nil_iff, hend]
  constructor
  · intro ⟨⟨hread, hbar, hellipsis, hpairs⟩, hlast⟩
    exact ⟨hread, hbar, hellipsis, hlast, hpairs⟩
  · intro ⟨hread, hbar, hellipsis, hlast, hpairs⟩
    exact ⟨⟨hread, hbar, hellipsis, hpairs⟩, hlast⟩

/-! ## The kinds of failures -/

theorem kind_of_misplaced? {previous : Option Token} {next : Token} {violation : Violation}
    (h : misplaced? previous next = some violation) : violation.kind = .emptiness := by
  unfold misplaced? at h
  split at h
  all_goals cases h
  all_goals rfl

theorem kind_of_mem_misplacements {line : SourceLine} {previous : Option Token}
    {xs : List ScannedToken} {failure : ParseFailure}
    (h : failure ∈ misplacements line previous xs) : failure.kind = .emptiness := by
  induction xs generalizing previous with
  | nil => cases h
  | cons x xs ih =>
    rcases List.mem_append.1 h with hfirst | hlater
    · obtain ⟨violation, hviolation, rfl⟩ :=
        Option.map_eq_some_iff.1 (Option.mem_toList.1 hfirst)
      exact kind_of_misplaced? hviolation
    · exact ih hlater

/-- The failures of lines are lexical where a line cannot be read on, and otherwise ones of
emptiness. -/
theorem kind_of_mem_insideFailures {previous : Option Token} {parts : List Part}
    {failure : ParseFailure} (h : failure ∈ insideFailures previous parts) :
    failure.kind = .emptiness ∨ failure.kind = .lexical ∧ ∃ part ∈ parts, ∃ rest,
      part.scan.unreadable = some rest ∧ failure = part.line.failure .unreadable rest := by
  induction parts generalizing previous with
  | nil => cases h
  | cons part more ih =>
    rcases List.mem_append.1 h with hpart | hmore
    · rcases List.mem_append.1 hpart with hmisplaced | hunread
      · exact Or.inl (kind_of_mem_misplacements hmisplaced)
      · obtain ⟨rest, hrest, rfl⟩ := Option.map_eq_some_iff.1 (Option.mem_toList.1 hunread)
        exact Or.inr ⟨rfl, part, List.mem_cons_self, rest, hrest, rfl⟩
    · rcases ih hmore with hkind | ⟨hkind, other, hmem, hother⟩
      · exact Or.inl hkind
      · exact Or.inr ⟨hkind, other, List.mem_cons_of_mem part hmem, hother⟩

theorem kind_of_endFailure? {line : SourceLine} {last : Option Token} {failure : ParseFailure}
    (h : endFailure? line last = some failure) : failure.kind = .emptiness := by
  unfold endFailure? at h
  split at h
  · obtain rfl := Option.some.inj h
    rfl
  · cases h

theorem kind_of_mem_failures {block : List Part} {failure : ParseFailure}
    (h : failure ∈ failures block) :
    failure.kind = .emptiness ∨ failure.kind = .lexical ∧ ∃ part ∈ block, ∃ rest,
      part.scan.unreadable = some rest ∧ failure = part.line.failure .unreadable rest := by
  rcases List.mem_append.1 h with hinside | hend
  · exact kind_of_mem_insideFailures hinside
  · obtain ⟨part, -, hpart⟩ := Option.bind_eq_some_iff.1 (Option.mem_toList.1 hend)
    exact Or.inl (kind_of_endFailure? hpart)

end Usage

end Synopsis
