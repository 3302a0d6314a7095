import Synopsis.Lexeme.Cut
import Synopsis.Text.Blank

/-!
# Layout

The recognisers of the space between things: indentation, gaps inside a line,
the end of a line, the separators of an options line, and the header that
opens the usage section.
-/

namespace Synopsis.Lexeme

open Synopsis.Text

/-- The indentation of a line, which may be empty. -/
def indent (s : List Char) : Cut :=
  Cut.run isLayout s

/-- A gap inside a line: one or more spaces and tabs. -/
def gap? (s : List Char) : Option Cut :=
  Cut.run1? isLayout s

/-- The end of a line, which may have spaces and tabs before it. -/
def lineEnd? (s : List Char) : Option Cut :=
  if s.all isLayout then some ⟨s, []⟩ else none

/-- What separates two names of one option: a comma and any spaces behind it,
or a single space. -/
def nameSeparator? : List Char → Option Cut
  | ',' :: s => some ((Cut.run (· == ' ') s).after [','])
  | ' ' :: s => some ⟨[' '], s⟩
  | _ => none

/-- What separates the names of an option from its description: two spaces or
more, or a run of tabs. -/
def descriptionSeparator? : List Char → Option Cut
  | ' ' :: ' ' :: s => some ((Cut.run (· == ' ') s).after [' ', ' '])
  | '\t' :: s => some ((Cut.run (· == '\t') s).after ['\t'])
  | _ => none

/-- The header of the usage section, with the layout around it. -/
def usageHeader? (s : List Char) : Option Cut :=
  let margin := indent s
  (caseless? ['u', 's', 'a', 'g', 'e', ':'] margin.rest).map fun header =>
    ((indent header.rest).after header.taken).after margin.taken

theorem takes_of_nameSeparator? {s : List Char} {cut : Cut}
    (h : nameSeparator? s = some cut) : cut.Takes s := by
  unfold nameSeparator? at h
  split at h
  · obtain rfl := Option.some.inj h
    exact (Cut.run_isOf _ _).takes_after ','
  · obtain rfl := Option.some.inj h
    exact ⟨rfl, by simp⟩
  · simp at h

theorem usageHeader?_isOf {s : List Char} {cut : Cut} (h : usageHeader? s = some cut) :
    cut.IsOf s := by
  obtain ⟨header, hheader, rfl⟩ := Option.map_eq_some_iff.1 h
  have hmargin : (indent s).taken ++ (indent s).rest = s := Cut.run_isOf isLayout s
  have hword : header.taken ++ header.rest = (indent s).rest := caseless?_isOf hheader
  have hbehind := (Cut.run_isOf isLayout header.rest).after header.taken
  rw [hword] at hbehind
  have hwhole := hbehind.after (indent s).taken
  rwa [hmargin] at hwhole

end Synopsis.Lexeme
