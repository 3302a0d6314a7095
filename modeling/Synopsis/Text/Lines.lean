/-!
# Lines

A text is a sequence of lines that end in a line feed, or in a carriage
return and a line feed.  The last line needs no end.  The end is no part of
the line, and a carriage return that no line feed follows is text.
-/

namespace Synopsis.Text

/-- The lines of a text, without their ends. -/
def lines : List Char → List (List Char)
  | [] => []
  | '\r' :: '\n' :: s => [] :: lines s
  | '\n' :: s => [] :: lines s
  | c :: s =>
    match lines s with
    | [] => [[c]]
    | line :: rest => (c :: line) :: rest

/-- Lines joined into one text, with a line feed between each two. -/
def joinLines : List (List Char) → List Char
  | [] => []
  | [line] => line
  | line :: rest => line ++ '\n' :: joinLines rest

/-! ## No line holds a line feed -/

theorem not_mem_of_mem_lines {s line : List Char} (h : line ∈ lines s) :
    '\n' ∉ line := by
  fun_induction lines s generalizing line with
  | case1 => simp at h
  | case2 s ih =>
    rcases List.mem_cons.1 h with rfl | h
    · simp
    · exact ih h
  | case3 s ih =>
    rcases List.mem_cons.1 h with rfl | h
    · simp
    · exact ih h
  | case4 c s _ hc hs ih =>
    obtain rfl : line = [c] := by simpa using h
    simpa using fun hn => hc hn.symm
  | case5 c s _ hc first rest hs ih =>
    rcases List.mem_cons.1 h with rfl | h
    · have : '\n' ∉ first := ih (by simp [hs])
      simp only [List.mem_cons, not_or]
      exact ⟨fun hn => hc hn.symm, this⟩
    · exact ih (by simp [hs, h])

end Synopsis.Text
