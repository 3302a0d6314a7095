import Synopsis.Failure
import Synopsis.Text.Lines

/-!
# Texts made of lines

A text that is written down from lines has these lines.  Lines can be written with a line
feed behind each of them (`terminated`), with either line end behind each (`ended`), or with
a line feed between each two (`joinLines`).  In the last form an empty line at the end would
be lost.

A carriage return at the end of a line would be read as part of the line's end, so there is
none in `IsLine`.

The lines of a section are numbered.  `numbered` counts from any number on, so that a block
of lines can be read behind other blocks.  `relocated` is the result of such a run: a failure
in it has the number of its line in the whole.
-/

namespace Synopsis

namespace Text

/-- A line that is read as it is written. -/
structure IsLine (line : List Char) : Prop where
  oneLine : '\n' ∉ line
  noReturn : line.getLast? ≠ some '\r'

instance (line : List Char) : Decidable (IsLine line) :=
  decidable_of_iff ('\n' ∉ line ∧ line.getLast? ≠ some '\r')
    ⟨fun h => ⟨h.1, h.2⟩, fun h => ⟨h.oneLine, h.noReturn⟩⟩

/-- The lines, each with a line feed behind it. -/
def terminated (ls : List (List Char)) : List Char :=
  ls.flatMap (· ++ ['\n'])

theorem isLine_nil : IsLine [] :=
  ⟨by simp, by simp⟩

theorem isLine_append {s t : List Char} (hs : '\n' ∉ s) (ht : IsLine t) (hne : t ≠ []) :
    IsLine (s ++ t) := by
  refine ⟨?_, fun hlast => ht.noReturn ?_⟩
  · intro hmem
    rcases List.mem_append.1 hmem with hmem | hmem
    · exact hs hmem
    · exact ht.oneLine hmem
  · rw [List.getLast?_append] at hlast
    cases hget : t.getLast? with
    | none => exact absurd (List.getLast?_eq_none_iff.1 hget) hne
    | some c =>
      rw [hget] at hlast
      exact hlast

theorem IsLine.append {s t : List Char} (hs : IsLine s) (ht : IsLine t) : IsLine (s ++ t) := by
  by_cases hne : t = []
  · rw [hne, List.append_nil]
    exact hs
  · exact isLine_append hs.oneLine ht hne

/-- A line with a line feed behind it is read as it is written, or without a carriage return
at its end. -/
theorem exists_lines_append_newline {line : List Char} (h : '\n' ∉ line) (s : List Char) :
    ∃ line', lines (line ++ '\n' :: s) = line' :: lines s ∧
      (line = line' ∨ line = line' ++ ['\r']) := by
  induction line with
  | nil => exact ⟨[], by rw [List.nil_append, lines], Or.inl rfl⟩
  | cons c line ih =>
    have hc : c ≠ '\n' := fun heq => h (heq ▸ List.mem_cons_self)
    obtain ⟨line', hread, hline⟩ := ih fun hmem => h (List.mem_cons_of_mem c hmem)
    by_cases hend : c = '\r' ∧ line = []
    · obtain ⟨rfl, rfl⟩ := hend
      exact ⟨[], rfl, Or.inr rfl⟩
    · refine ⟨c :: line', ?_, ?_⟩
      · rw [List.cons_append, lines, hread]
        · intro t hreturn htail
          cases line with
          | nil => exact hend ⟨hreturn, rfl⟩
          | cons d line =>
            obtain ⟨rfl, -⟩ := List.cons.inj htail
            exact h (by simp)
        · exact fun heq => hc heq
      · rcases hline with rfl | rfl
        · exact Or.inl rfl
        · exact Or.inr rfl

theorem lines_append_newline {line : List Char} (h : IsLine line) (s : List Char) :
    lines (line ++ '\n' :: s) = line :: lines s := by
  obtain ⟨line', hread, hline | hline⟩ := exists_lines_append_newline h.oneLine s
  · rw [hread, hline]
  · exact absurd (by rw [hline, List.getLast?_concat]) h.noReturn

/-- Lines that are written down with a line feed behind each are read again. -/
theorem lines_terminated {ls : List (List Char)} (h : ∀ line ∈ ls, IsLine line) :
    lines (terminated ls) = ls := by
  induction ls with
  | nil => rfl
  | cons line ls ih =>
    have hlater := ih fun l hl => h l (List.mem_cons_of_mem line hl)
    have hfirst := lines_append_newline (h line List.mem_cons_self) (terminated ls)
    rw [hlater] at hfirst
    simpa [terminated] using hfirst

/-- The two ends of a line. -/
inductive LineEnd
  | lineFeed
  | returnAndLineFeed

def LineEnd.chars : LineEnd → List Char
  | lineFeed => ['\n']
  | returnAndLineFeed => ['\r', '\n']

/-- The lines, each with its own line end behind it. -/
def ended (ls : List (List Char × LineEnd)) : List Char :=
  ls.flatMap fun (line, stop) => line ++ stop.chars

theorem lines_append_return {line : List Char} (h : '\n' ∉ line) (s : List Char) :
    lines (line ++ '\r' :: '\n' :: s) = line :: lines s := by
  induction line with
  | nil => rw [List.nil_append, lines]
  | cons c line ih =>
    have hc : c ≠ '\n' := fun heq => h (heq ▸ List.mem_cons_self)
    have hread := ih fun hmem => h (List.mem_cons_of_mem c hmem)
    rw [List.cons_append, lines, hread]
    · intro t _ htail
      -- Behind `c` stands the rest of the line or the carriage return.
      cases line with
      | nil =>
        obtain ⟨heq, -⟩ := List.cons.inj htail
        cases heq
      | cons d line =>
        obtain ⟨rfl, -⟩ := List.cons.inj htail
        exact h (by simp)
    · exact fun heq => hc heq

/-- Lines are read again, whichever line ends they are written with. -/
theorem lines_ended {ls : List (List Char × LineEnd)} (h : ∀ line ∈ ls.map Prod.fst, IsLine line) :
    lines (ended ls) = ls.map Prod.fst := by
  induction ls with
  | nil => rfl
  | cons first ls ih =>
    obtain ⟨line, stop⟩ := first
    rw [List.map_cons, List.forall_mem_cons] at h
    have hlater := ih h.2
    have hended : ended ((line, stop) :: ls) = line ++ (stop.chars ++ ended ls) := by
      simp [ended]
    rw [hended, List.map_cons, ← hlater]
    cases stop with
    | lineFeed => exact lines_append_newline h.1 (ended ls)
    | returnAndLineFeed => exact lines_append_return h.1.oneLine (ended ls)

theorem lines_of_one {s : List Char} (hs : s ≠ []) (h : '\n' ∉ s) : lines s = [s] := by
  fun_induction lines s with
  | case1 => exact absurd rfl hs
  | case2 s _ => exact absurd (by simp) h
  | case3 s _ => exact absurd (by simp) h
  | case4 c s _ _ hlines ih =>
    cases s with
    | nil => rfl
    | cons d s =>
      rw [ih (by simp) fun hmem => h (List.mem_cons_of_mem c hmem)] at hlines
      cases hlines
  | case5 c s _ _ first rest hlines ih =>
    cases s with
    | nil => cases hlines
    | cons d s =>
      rw [ih (by simp) fun hmem => h (List.mem_cons_of_mem c hmem)] at hlines
      obtain ⟨rfl, rfl⟩ := List.cons.inj hlines
      rfl

/-- The lines of a text have no characters but those of the text. -/
theorem mem_of_mem_lines {s line : List Char} (h : line ∈ lines s) : ∀ c ∈ line, c ∈ s := by
  intro d hd
  fun_induction lines s generalizing line with
  | case1 => simp at h
  | case2 s ih =>
    rcases List.mem_cons.1 h with rfl | h
    · simp at hd
    · exact List.mem_cons_of_mem _ (List.mem_cons_of_mem _ (ih h hd))
  | case3 s ih =>
    rcases List.mem_cons.1 h with rfl | h
    · simp at hd
    · exact List.mem_cons_of_mem _ (ih h hd)
  | case4 c s _ _ _ _ =>
    obtain rfl : line = [c] := by simpa using h
    obtain rfl : d = c := by simpa using hd
    exact List.mem_cons_self
  | case5 c s _ _ first rest hs ih =>
    rcases List.mem_cons.1 h with rfl | h
    · rcases List.mem_cons.1 hd with rfl | hd
      · exact List.mem_cons_self
      · exact List.mem_cons_of_mem c (ih (by simp [hs]) hd)
    · exact List.mem_cons_of_mem c (ih (by simp [hs, h]) hd)

theorem joinLines_cons {line next : List Char} {ls : List (List Char)} :
    joinLines (line :: next :: ls) = line ++ '\n' :: joinLines (next :: ls) := rfl

/-- The first of lines that are joined is read again, but for a carriage return at its end. -/
theorem exists_lines_joinLines {first : List Char} (h : '\n' ∉ first) (hne : first ≠ [])
    (ls : List (List Char)) :
    ∃ first' more, lines (joinLines (first :: ls)) = first' :: more ∧
      (first = first' ∨ first = first' ++ ['\r']) := by
  cases ls with
  | nil => exact ⟨first, [], lines_of_one hne h, Or.inl rfl⟩
  | cons next ls =>
    obtain ⟨first', hread, hfirst⟩ := exists_lines_append_newline h (joinLines (next :: ls))
    exact ⟨first', _, hread, hfirst⟩

/-- Lines that are joined are read again when the last of them is not empty. -/
theorem lines_joinLines {ls : List (List Char)} (h : ∀ line ∈ ls, IsLine line)
    (hlast : ls.getLast? ≠ some []) : lines (joinLines ls) = ls := by
  induction ls with
  | nil => rfl
  | cons line ls ih =>
    cases ls with
    | nil =>
      have hne : line ≠ [] := by simpa using hlast
      exact lines_of_one hne (h line List.mem_cons_self).oneLine
    | cons next ls =>
      rw [joinLines_cons, lines_append_newline (h line List.mem_cons_self),
        ih (fun l hl => h l (List.mem_cons_of_mem line hl)) (by simpa using hlast)]

end Text

/-! ## Runs that can fail -/

/-- Both parts of a run that succeeds do. -/
theorem exists_of_bind {ε α β : Type} {x : Except ε α} {f : α → Except ε β} {b : β}
    (h : x >>= f = .ok b) : ∃ a, x = .ok a ∧ f a = .ok b := by
  cases x with
  | error e => cases h
  | ok a => exact ⟨a, rfl, h⟩

theorem exists_of_map_ok {ε α β : Type} {x : Except ε α} {f : α → β} {b : β}
    (h : x.map f = .ok b) : ∃ a, b = f a ∧ x = .ok a := by
  cases x with
  | error e => cases h
  | ok a => exact ⟨a, (Except.ok.inj h).symm, rfl⟩

theorem map_eq_error_iff {ε α β : Type} {x : Except ε α} {f : α → β} {e : ε} :
    x.map f = .error e ↔ x = .error e := by
  cases x with
  | error cause => simp [Except.map]
  | ok a => simp [Except.map]

/-! ## Numbered lines -/

namespace SourceLine

/-- The lines, numbered from `number` on. -/
def numbered : Nat → List (List Char) → List SourceLine
  | _, [] => []
  | number, line :: ls => ⟨line, number⟩ :: numbered (number + 1) ls

theorem map_zipIdx (ls : List (List Char)) (number : Nat) :
    ((ls.zipIdx number).map fun (text, n) => (⟨text, n⟩ : SourceLine)) =
      numbered number ls := by
  induction ls generalizing number with
  | nil => rfl
  | cons line ls ih => rw [List.zipIdx_cons, List.map_cons, ih, numbered]

theorem ofLines_eq_numbered (ls : List (List Char)) : ofLines ls = numbered 1 ls :=
  map_zipIdx ls 1

theorem numbered_append (number : Nat) (ls more : List (List Char)) :
    numbered number (ls ++ more) =
      numbered number ls ++ numbered (number + ls.length) more := by
  induction ls generalizing number with
  | nil => rfl
  | cons line ls ih =>
    rw [List.cons_append, numbered, ih, numbered, List.cons_append, List.length_cons,
      Nat.add_assoc, Nat.add_comm 1]

/-- A numbered line has the number of its place. -/
theorem exists_of_mem_numbered {number : Nat} {ls : List (List Char)} {line : SourceLine}
    (h : line ∈ numbered number ls) : ∃ before after,
      ls = before ++ line.text :: after ∧ line.number = number + before.length := by
  induction ls generalizing number with
  | nil => cases h
  | cons first ls ih =>
    rcases List.mem_cons.1 h with rfl | h
    · exact ⟨[], ls, rfl, rfl⟩
    · obtain ⟨before, after, rfl, hnumber⟩ := ih h
      refine ⟨first :: before, after, rfl, ?_⟩
      rw [hnumber, List.length_cons]
      omega

theorem mem_numbered (number : Nat) (before : List (List Char)) (line : List Char)
    (after : List (List Char)) :
    ⟨line, number + before.length⟩ ∈ numbered number (before ++ line :: after) := by
  rw [numbered_append]
  exact List.mem_append_right _ List.mem_cons_self

/-- A run over lines fails at one of them, behind lines that are read. -/
theorem foldlM_eq_error_iff {σ ε : Type} {read : σ → SourceLine → Except ε σ} {start : σ}
    {number : Nat} {ls : List (List Char)} {failure : ε} :
    (numbered number ls).foldlM read start = .error failure ↔
      ∃ before line after reached, ls = before ++ line :: after ∧
        (numbered number before).foldlM read start = .ok reached ∧
          read reached ⟨line, number + before.length⟩ = .error failure := by
  induction ls generalizing start number with
  | nil =>
    constructor
    · rintro ⟨⟩
    · rintro ⟨before, line, after, _, hnil, _⟩
      cases before <;> cases hnil
  | cons first ls ih =>
    rw [numbered, List.foldlM_cons]
    constructor
    · intro h
      cases hfirst : read start ⟨first, number⟩ with
      | error cause =>
        rw [hfirst] at h
        obtain rfl := Except.error.inj h
        exact ⟨[], first, ls, start, rfl, rfl, hfirst⟩
      | ok next =>
        rw [hfirst] at h
        obtain ⟨before, line, after, reached, rfl, hbefore, hline⟩ := ih.1 h
        refine ⟨first :: before, line, after, reached, rfl, ?_, ?_⟩
        · rw [numbered, List.foldlM_cons, hfirst]
          exact hbefore
        · rw [List.length_cons, Nat.add_comm before.length, ← Nat.add_assoc]
          exact hline
    · rintro ⟨before, line, after, reached, hsplit, hbefore, hline⟩
      cases before with
      | nil =>
        obtain ⟨rfl, rfl⟩ := List.cons.inj hsplit
        obtain rfl := Except.ok.inj hbefore
        rw [show read start ⟨first, number⟩ = .error failure from hline]
        rfl
      | cons first' before =>
        obtain ⟨rfl, rfl⟩ := List.cons.inj hsplit
        rw [numbered, List.foldlM_cons] at hbefore
        cases hfirst : read start ⟨first, number⟩ with
        | error cause =>
          rw [hfirst] at hbefore
          cases hbefore
        | ok next =>
          rw [hfirst] at hbefore
          rw [List.length_cons, Nat.add_comm before.length, ← Nat.add_assoc] at hline
          exact ih.2 ⟨before, line, after, reached, rfl, hbefore, hline⟩

end SourceLine

/-! ## Lines further down -/

/-- The failure in a section that stands some lines further down. -/
def ParseFailure.moved (count : Nat) (failure : ParseFailure) : ParseFailure :=
  { failure with lineNumber := failure.lineNumber + count }

namespace SourceLine

/-- The line with that many lines before its section. -/
def moved (count : Nat) (line : SourceLine) : SourceLine :=
  { line with number := line.number + count }

theorem numbered_moved (count number : Nat) (ls : List (List Char)) :
    numbered (number + count) ls = (numbered number ls).map (moved count) := by
  induction ls generalizing number with
  | nil => rfl
  | cons line ls ih =>
    have hnext : number + count + 1 = number + 1 + count := by omega
    rw [numbered, hnext, ih]
    rfl

end SourceLine

section Relocated

variable {α β γ : Type} (count : Nat)

/-- The result of a run that many lines further down, where `f` says what becomes of a value. -/
def relocated (f : α → β) : Except ParseFailure α → Except ParseFailure β
  | .ok a => .ok (f a)
  | .error failure => .error (failure.moved count)

theorem relocated_map (f : α → β) (g : β → γ) (x : Except ParseFailure α) :
    (relocated count f x).map g = relocated count (g ∘ f) x := by
  cases x <;> rfl

theorem relocated_of_map (f : β → γ) (g : α → β) (x : Except ParseFailure α) :
    relocated count f (x.map g) = relocated count (f ∘ g) x := by
  cases x <;> rfl

/-- A run is relocated step by step. -/
theorem relocated_bind {δ : Type} {f : α → β} {h : γ → δ} {g : α → Except ParseFailure γ}
    {g' : β → Except ParseFailure δ} (hstep : ∀ a, g' (f a) = relocated count h (g a))
    (x : Except ParseFailure α) :
    relocated count f x >>= g' = relocated count h (x >>= g) := by
  cases x with
  | error failure => rfl
  | ok a => exact hstep a

end Relocated

end Synopsis
