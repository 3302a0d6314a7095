/-!
# Widths and positions in bytes

Columns count the bytes of the text's UTF-8 form.  `splitAtByte?` cuts a text
at such a column, when the column does not fall inside a character.
-/

namespace Synopsis.Text

/-- The number of bytes of a text in UTF-8. -/
def byteWidth : List Char → Nat
  | [] => 0
  | c :: s => c.utf8Size + byteWidth s

/-- The two parts of a text before and after its first `n` bytes.  There are
none when the text is shorter or a character lies across the cut. -/
def splitAtByte? : List Char → Nat → Option (List Char × List Char)
  | s, 0 => some ([], s)
  | [], _ + 1 => none
  | c :: s, n + 1 =>
    if c.utf8Size ≤ n + 1 then
      (splitAtByte? s (n + 1 - c.utf8Size)).map fun (head, tail) => (c :: head, tail)
    else
      none

theorem byteWidth_append (s t : List Char) :
    byteWidth (s ++ t) = byteWidth s + byteWidth t := by
  induction s with
  | nil => simp [byteWidth]
  | cons c s ih => simp [byteWidth, ih, Nat.add_assoc]

/-- An ASCII text has a byte for each character. -/
theorem byteWidth_of_ascii {s : List Char} (h : ∀ c ∈ s, c.toNat < 128) :
    byteWidth s = s.length := by
  induction s with
  | nil => rfl
  | cons c s ih =>
    have hlt : c.toNat < 128 := h c List.mem_cons_self
    have hone : c.utf8Size = 1 := if_pos (Nat.le_of_lt_succ hlt)
    rw [byteWidth, hone, ih fun d hd => h d (List.mem_cons_of_mem c hd), List.length_cons,
      Nat.add_comm]

/-- Cutting after the first part of an appended text gives both parts back. -/
theorem splitAtByte?_append (s t : List Char) :
    splitAtByte? (s ++ t) (byteWidth s) = some (s, t) := by
  induction s with
  | nil => simp [byteWidth, splitAtByte?]
  | cons c s ih =>
    have hc : 0 < c.utf8Size := c.utf8Size_pos
    have hw : byteWidth (c :: s) = c.utf8Size + byteWidth s := rfl
    obtain ⟨n, hn⟩ : ∃ n, byteWidth (c :: s) = n + 1 :=
      ⟨byteWidth (c :: s) - 1, by omega⟩
    have hrest : n + 1 - c.utf8Size = byteWidth s := by omega
    rw [hn, List.cons_append, splitAtByte?, if_pos (by omega), hrest, ih]
    rfl

end Synopsis.Text
