import Synopsis.Lexeme.Cut
import Synopsis.Text.Blank

/-!
# Names and words

The recognisers of what a user types as it stands: option names, plain words,
and the name of the program itself.
-/

namespace Synopsis.Lexeme

open Synopsis.Text

/-! ## Character classes -/

/-- The characters of bracketed and alternative regions. -/
def isStructural (c : Char) : Bool :=
  c == '(' || c == ')' || c == '[' || c == ']' || c == '|'

/-- The characters of an option name behind its dashes. -/
def isOptionChar (c : Char) : Bool :=
  !(isBlank c || isStructural c || c == '<' || c == '=' || c == '.' || c == ',')

/-- The characters of a word between its dots. -/
def isWordPart (c : Char) : Bool :=
  !(isBlank c || isStructural c || c == '<' || c == '.')

/-- The characters of a program name. -/
def isBinaryChar (c : Char) : Bool :=
  !(isBlank c || isStructural c || c == '<' || c == '>')

/-- The characters that a program name may start with. -/
def isBinaryStart (c : Char) : Bool :=
  isBinaryChar c && !(c == '.' || c == '-')

/-! ## Recognisers -/

/-- An option name: two dashes and one or more characters, or one dash and
one character that is not a dash. -/
def optionName? : List Char → Option Cut
  | '-' :: '-' :: s => (Cut.run1? isOptionChar s).map (·.after ['-', '-'])
  | '-' :: c :: s =>
    if isOptionChar c then some ⟨['-', c], s⟩ else none
  | _ => none

/-- The rest of a word whose last character was a word part.  A dot goes on
with the word only when a word part follows it. -/
def wordTail : List Char → Cut
  | [] => ⟨[], []⟩
  | '.' :: c :: s =>
    if isWordPart c then (wordTail (c :: s)).after ['.'] else ⟨[], '.' :: c :: s⟩
  | c :: s => if isWordPart c then (wordTail s).after [c] else ⟨[], c :: s⟩

/-- A plain word: word parts joined by single dots. -/
def word? : List Char → Option Cut
  | [] => none
  | c :: s => if isWordPart c then some ((wordTail s).after [c]) else none

/-- The name of a program without the directory before it. -/
def baseName? : List Char → Option Cut
  | [] => none
  | c :: s =>
    if isBinaryStart c then some ((Cut.run isBinaryChar s).after [c]) else none

/-- The name of a program, which may stand behind `./` or `../`. -/
def binaryName? : List Char → Option Cut
  | '.' :: '.' :: '/' :: s => (baseName? s).map (·.after ['.', '.', '/'])
  | '.' :: '/' :: s => (baseName? s).map (·.after ['.', '/'])
  | s => baseName? s

/-! ## Names take characters -/

theorem takes_of_optionName? {s : List Char} {cut : Cut}
    (h : optionName? s = some cut) : cut.Takes s := by
  unfold optionName? at h
  split at h
  · obtain ⟨name, hname, rfl⟩ := Option.map_eq_some_iff.1 h
    exact (Cut.takes_of_run1? hname).after ['-', '-']
  · split at h
    · obtain rfl := Option.some.inj h
      exact ⟨rfl, by simp⟩
    · simp at h
  · simp at h

theorem wordTail_isOf (s : List Char) : (wordTail s).IsOf s := by
  fun_induction wordTail s with
  | case1 => rfl
  | case2 c s _ ih => exact ih.after ['.']
  | case3 => rfl
  | case4 c s _ _ ih => exact ih.after [c]
  | case5 => rfl

theorem takes_of_word? {s : List Char} {cut : Cut} (h : word? s = some cut) :
    cut.Takes s := by
  cases s with
  | nil => simp [word?] at h
  | cons c s =>
    rw [word?] at h
    split at h
    · obtain rfl := Option.some.inj h
      exact (wordTail_isOf s).takes_after c
    · simp at h

end Synopsis.Lexeme
