/-!
# Cuts

A recogniser looks at the start of a text only.  When it recognises something
it answers with a `Cut`: the characters it takes and the characters it leaves.
`Cut.IsOf` says that the two make up the text that was cut, and `Cut.Takes`
that something was taken.

Two fixed words of a help text are recognised in upper, lower or mixed case:
the header of the usage section, and the mark of a default value.  `caseless?`
takes such a word.
-/

namespace Synopsis.Lexeme

/-- A text in two parts: what a recogniser takes and what it leaves. -/
structure Cut where
  taken : List Char
  rest : List Char
  deriving DecidableEq, Repr

namespace Cut

/-- Takes the longest run of characters of one class, which may be empty. -/
def run (p : Char → Bool) (s : List Char) : Cut :=
  ⟨s.takeWhile p, s.dropWhile p⟩

/-- Takes the longest run of characters of one class, unless it is empty. -/
def run1? (p : Char → Bool) (s : List Char) : Option Cut :=
  if (s.takeWhile p).isEmpty then none else some (run p s)

/-- Takes the text `mark`. -/
def mark? (mark s : List Char) : Option Cut :=
  if mark.isPrefixOf s then some ⟨mark, s.drop mark.length⟩ else none

/-- The cut with `head` taken before it. -/
def after (head : List Char) (cut : Cut) : Cut :=
  ⟨head ++ cut.taken, cut.rest⟩

/-- The cut is one of the text `s`: nothing is lost and nothing is added. -/
def IsOf (cut : Cut) (s : List Char) : Prop :=
  cut.taken ++ cut.rest = s

/-- The cut is one of the text `s`, and it takes at least one character. -/
def Takes (cut : Cut) (s : List Char) : Prop :=
  cut.IsOf s ∧ cut.taken ≠ []

/-! ## The parts make up the text -/

theorem run_isOf (p : Char → Bool) (s : List Char) : (run p s).IsOf s :=
  List.takeWhile_append_dropWhile

theorem takes_of_run1? {p : Char → Bool} {s : List Char} {cut : Cut}
    (h : run1? p s = some cut) : cut.Takes s := by
  unfold run1? at h
  split at h
  · simp at h
  · rename_i hne
    obtain rfl := Option.some.inj h
    exact ⟨run_isOf p s, by simpa [run] using hne⟩

theorem IsOf.after {cut : Cut} {s : List Char} (h : cut.IsOf s)
    (head : List Char) : (cut.after head).IsOf (head ++ s) := by
  have h' : cut.taken ++ cut.rest = s := h
  simp [IsOf, Cut.after, h']

/-- A cut with a character taken before it takes something. -/
theorem IsOf.takes_after {cut : Cut} {s : List Char} (h : cut.IsOf s)
    (c : Char) : (cut.after [c]).Takes (c :: s) :=
  ⟨h.after [c], by simp [Cut.after]⟩

theorem Takes.after {cut : Cut} {s : List Char} (h : cut.Takes s)
    (head : List Char) : (cut.after head).Takes (head ++ s) :=
  ⟨h.1.after head, by simp [Cut.after, h.2]⟩

/-- A cut that takes something leaves less. -/
theorem Takes.rest_length_lt {cut : Cut} {s : List Char} (h : cut.Takes s) :
    cut.rest.length < s.length := by
  have h' : cut.taken ++ cut.rest = s := h.1
  rw [← h', List.length_append]
  have := List.length_pos_iff.2 h.2
  omega

end Cut

/-! ## Words in either case -/

/-- Whether `c` spells the lower-case letter `letter` when case does not
count.  The long s is a spelling of the letter s. -/
def spells (letter c : Char) : Bool :=
  c.toLower == letter || (letter == 's' && c == 'ſ')

/-- Takes the characters that spell `word` when case does not count. -/
def caseless? : (word s : List Char) → Option Cut
  | [], s => some ⟨[], s⟩
  | letter :: word, c :: s =>
    if spells letter c then (caseless? word s).map (·.after [c]) else none
  | _ :: _, [] => none

theorem caseless?_isOf {word s : List Char} {cut : Cut}
    (h : caseless? word s = some cut) : cut.IsOf s := by
  fun_induction caseless? word s generalizing cut with
  | case1 =>
    obtain rfl := Option.some.inj h
    rfl
  | case2 letter word c s _ ih =>
    obtain ⟨tail, htail, rfl⟩ := Option.map_eq_some_iff.1 h
    exact (ih htail).after [c]
  | case3 => simp at h
  | case4 => simp at h

end Synopsis.Lexeme
