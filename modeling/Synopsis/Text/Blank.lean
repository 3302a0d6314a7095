/-!
# Blanks

Two notions of white space meet in a help text.  *Layout* is the plain space
and the tab: indentation and the gaps inside a line.  A *blank* is any
character with the Unicode property White_Space; blanks bound words and are
trimmed from the ends of fragments.

A property of characters is a list of closed code-point ranges in ascending
order, and `inRanges` looks a code point up.  The tables, of this property and of
the others, follow Unicode 17.0; the one of word characters says how it differs.
-/

namespace Synopsis.Text

/-! ## Tables of code points -/

/-- A closed range of code points, first and last. -/
abbrev CodeRange := Nat × Nat

/-- Membership in an ascending table.  The search stops at the first range
that lies above the code point. -/
def inRanges : List CodeRange → Nat → Bool
  | [], _ => false
  | (first, last) :: rest, n =>
    if n < first then false else if n ≤ last then true else inRanges rest n

/-! ## White space -/

/-- The code points that are White_Space. -/
def blankRanges : List CodeRange :=
  [(0x0009, 0x000D), (0x0020, 0x0020), (0x0085, 0x0085), (0x00A0, 0x00A0),
   (0x1680, 0x1680), (0x2000, 0x200A), (0x2028, 0x2029), (0x202F, 0x202F),
   (0x205F, 0x205F), (0x3000, 0x3000)]

/-- White space of any kind. -/
def isBlank (c : Char) : Bool :=
  inRanges blankRanges c.toNat

/-- The spaces and tabs that lay a line out. -/
def isLayout (c : Char) : Bool :=
  c == ' ' || c == '\t'

/-- The text without the blanks at its start. -/
def trimStart (s : List Char) : List Char :=
  s.dropWhile isBlank

/-- The text without the blanks at its end. -/
def trimEnd (s : List Char) : List Char :=
  (s.reverse.dropWhile isBlank).reverse

/-- The text without the blanks at either end. -/
def trim (s : List Char) : List Char :=
  trimEnd (trimStart s)

/-! ## Layout is blank -/

theorem isLayout_iff {c : Char} : isLayout c = true ↔ c = ' ' ∨ c = '\t' := by
  simp [isLayout]

theorem isBlank_of_isLayout {c : Char} (h : isLayout c = true) :
    isBlank c = true := by
  rcases isLayout_iff.1 h with rfl | rfl <;> decide

end Synopsis.Text
