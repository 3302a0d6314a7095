import Synopsis.Proofs.Trimming

/-!
# Usage sections one behind the other

When a section that is read is followed by another one for the same program, the forms of both
are read, one behind the other.  A failure in the second section stays the same but for the
number of its line.

* Reading a line further down, with more forms finished before (`Reading.behind`), gives what
  it gives without them, `relocated`.  This goes from one token (`place_moved`) over a line
  (`readLine_behind`) to all lines (`foldlM_behind`).
* `foldlM_first` is the point where the sections meet.  Nothing is carried over it but the
  name of the program and the forms, because no failure is pending.

`parse_appended` is the result.
-/

namespace Synopsis

open Lexeme Text

namespace Usage

/-! ## One line further down -/

section Line

variable (count : Nat) (line : SourceLine)

theorem place_moved (g : Grammar) (x : ScannedToken) :
    place (line.moved count) g x = relocated count id (place line g x) := by
  unfold place
  cases misplaced? g.last? x.token with
  | some violation => rfl
  | none =>
    simp only
    split
    · rfl
    · rfl

theorem foldlM_place_moved (xs : List ScannedToken) (g : Grammar) :
    xs.foldlM (place (line.moved count)) g =
      relocated count id (xs.foldlM (place line) g) := by
  induction xs generalizing g with
  | nil => rfl
  | cons x xs ih =>
    rw [List.foldlM_cons, List.foldlM_cons, place_moved]
    exact relocated_bind count ih _

theorem extend_moved (g : Grammar) (spaced : Bool) (tail : List Char) :
    extend (line.moved count) g spaced tail =
      relocated count id (extend line g spaced tail) := by
  simp only [extend, foldlM_place_moved]
  cases (scan spaced tail).tokens.foldlM (place line) g with
  | error failure => rfl
  | ok g' =>
    cases (scan spaced tail).unreadable with
    | some rest => rfl
    | none => rfl

end Line

/-- The usage with more forms before its own. -/
def behind (forms : List Grammar) (usage : Usage) : Usage :=
  { usage with variants := forms ++ usage.variants }

namespace Reading

/-- The reading of a section further down, with more forms finished before it. -/
def behind (forms : List Grammar) (count : Nat) (r : Reading) : Reading :=
  { r with
    finished := forms ++ r.finished
    dangling := r.dangling.map (·.moved count) }

section Behind

variable (forms : List Grammar) (count : Nat) (r : Reading)

theorem startNext_behind :
    (r.behind forms count).startNext = relocated count (behind forms count) r.startNext := by
  obtain ⟨binary, finished, current, dangling⟩ := r
  cases dangling with
  | some failure => rfl
  | none => simp [startNext, behind, relocated]

theorem finish_behind :
    (r.behind forms count).finish = relocated count (Usage.behind forms) r.finish := by
  obtain ⟨binary, finished, current, dangling⟩ := r
  cases dangling with
  | some failure => rfl
  | none => simp [finish, behind, Usage.behind, relocated]

theorem continueWith_behind (line : SourceLine) (spaced : Bool) (tail : List Char) :
    (r.behind forms count).continueWith (line.moved count) spaced tail =
      relocated count (behind forms count) (r.continueWith line spaced tail) := by
  have hextend := extend_moved count line r.current spaced tail
  unfold continueWith
  rw [show (r.behind forms count).current = r.current from rfl, hextend]
  cases extend line r.current spaced tail with
  | error failure => rfl
  | ok g =>
    simp only [relocated, id_eq, behind]
    split
    · rfl
    · rfl

theorem readLine_behind (line : SourceLine) :
    readLine (some (r.behind forms count)) (line.moved count) =
      relocated count (Option.map (behind forms count)) (readLine (some r) line) := by
  have hcontinue : ∀ (r : Reading) (spaced : Bool) (tail : List Char),
      ((r.behind forms count).continueWith (line.moved count) spaced tail).map some =
        relocated count (Option.map (behind forms count))
          ((r.continueWith line spaced tail).map some) := by
    intro r spaced tail
    rw [continueWith_behind, relocated_map, relocated_of_map]
    rfl
  simp only [readLine]
  rw [show (line.moved count).text = line.text from rfl]
  split
  · rfl
  · cases binaryName? (indent line.text).rest with
    | none => exact hcontinue r true _
    | some name =>
      simp only
      rw [show (r.behind forms count).binary = r.binary from rfl]
      split
      · rw [startNext_behind]
        cases r.startNext with
        | error failure => rfl
        | ok next => exact hcontinue next false _
      · exact hcontinue r true _

end Behind

/-- Once a form is open, there is a reading behind each line. -/
theorem exists_of_readLine_some {r : Reading} {line : SourceLine} {next : Option Reading}
    (h : readLine (some r) line = .ok next) : ∃ r', next = some r' := by
  cases step_of_readLine h with
  | blank => exact ⟨r, rfl⟩
  | next _ _ _ _ => exact ⟨_, rfl⟩
  | continued _ _ => exact ⟨_, rfl⟩

/-- Lines further down, with more forms finished before them, are read as without these. -/
theorem foldlM_behind (forms : List Grammar) (count number : Nat) (ls : List (List Char))
    (r : Reading) :
    (SourceLine.numbered (number + count) ls).foldlM readLine (some (r.behind forms count)) =
      relocated count (Option.map (behind forms count))
        ((SourceLine.numbered number ls).foldlM readLine (some r)) := by
  rw [SourceLine.numbered_moved]
  induction ls generalizing r number with
  | nil => rfl
  | cons line ls ih =>
    rw [SourceLine.numbered, List.map_cons, List.foldlM_cons, List.foldlM_cons,
      readLine_behind]
    cases hread : readLine (some r) ⟨line, number⟩ with
    | error failure => rfl
    | ok next =>
      obtain ⟨r', rfl⟩ := exists_of_readLine_some hread
      exact ih (number + 1) r'

/-! ## Where the sections meet -/

theorem foldlM_blank {ls : List (List Char)} (hls : ∀ line ∈ ls, IsPad line) (number : Nat)
    (reading : Option Reading) :
    (SourceLine.numbered number ls).foldlM readLine reading = .ok reading := by
  induction ls generalizing number with
  | nil => rfl
  | cons line ls ih =>
    rw [SourceLine.numbered, List.foldlM_cons,
      readLine_blank reading (indent_rest_eq_nil_iff.2 (hls line List.mem_cons_self))]
    exact ih (fun l hl => hls l (List.mem_cons_of_mem line hl)) (number + 1)

/-- A line that starts with the name of the program opens a form in the same way at the start
of a section and behind a form that is complete. -/
theorem readLine_first {r : Reading} (hcomplete : r.dangling = none) {line rest : List Char}
    (hname : binaryName? (indent line).rest = some ⟨r.binary, rest⟩) (count number : Nat) :
    readLine (some r) ⟨line, number + count⟩ =
      relocated count (Option.map (behind (r.finished ++ [r.current]) count))
        (readLine none ⟨line, number⟩) := by
  have hne : (indent line).rest.isEmpty = false := by
    simpa using ne_nil_of_binaryName? hname
  have hnext : r.startNext =
      .ok ((start r.binary).behind (r.finished ++ [r.current]) count) := by
    simp [startNext, hcomplete, start, behind]
  have hcontinue := continueWith_behind (r.finished ++ [r.current]) count (start r.binary)
    ⟨line, number⟩ false rest
  simp only [readLine, hne, Bool.false_eq_true, if_false, hname, if_true, hnext]
  rw [relocated_of_map]
  exact (congrArg (Except.map some) hcontinue).trans (relocated_map count _ _ _)

theorem foldlM_first {r : Reading} (hcomplete : r.dangling = none) {line rest : List Char}
    (hname : binaryName? (indent line).rest = some ⟨r.binary, rest⟩) (count number : Nat)
    (ls : List (List Char)) :
    (SourceLine.numbered (number + count) (line :: ls)).foldlM readLine (some r) =
      relocated count (Option.map (behind (r.finished ++ [r.current]) count))
        ((SourceLine.numbered number (line :: ls)).foldlM readLine none) := by
  have hnext : number + count + 1 = number + 1 + count := by omega
  rw [SourceLine.numbered, SourceLine.numbered, List.foldlM_cons, List.foldlM_cons,
    readLine_first hcomplete hname, hnext]
  cases hread : readLine none ⟨line, number⟩ with
  | error failure => rfl
  | ok next =>
    cases step_of_readLine hread with
    | blank hblank =>
      have hblank : (indent line).rest = [] := hblank
      rw [hblank] at hname
      cases hname
    | first _ _ => exact foldlM_behind _ count (number + 1) ls _

end Reading

theorem unnamedFailure_append (A : List (List Char)) {B : List (List Char)} (hB : B ≠ []) :
    unnamedFailure (A ++ B) = (unnamedFailure B).moved A.length := by
  cases hlast : B.getLast? with
  | none => exact absurd (List.getLast?_eq_none_iff.1 hlast) hB
  | some last =>
    simp [unnamedFailure, hlast, ParseFailure.moved, SourceLine.failure, Nat.add_comm]

/-- The lines of a section that is read, followed by lines that start with the name of its
program: the forms of both are read. -/
theorem ofLines_append {A B : List (List Char)} {usage : Usage} (hA : ofLines A = .ok usage)
    {line rest : List Char} (hline : B.find? (!·.all isLayout) = some line)
    (hname : binaryName? (indent line).rest = some ⟨usage.binary.toList, rest⟩) :
    ofLines (A ++ B) = relocated A.length (behind usage.variants) (ofLines B) := by
  -- The first section leaves a reading with all its forms, and nothing pending.
  obtain ⟨r, hread, hcomplete, hbinary, hforms⟩ : ∃ r : Reading,
      (SourceLine.numbered 1 A).foldlM Reading.readLine none = .ok (some r) ∧
        r.dangling = none ∧ r.binary = usage.binary.toList ∧
          r.finished ++ [r.current] = usage.variants := by
    obtain ⟨reading, hread⟩ := exists_foldlM_of_ofLines hA
    rw [ofLines, SourceLine.ofLines_eq_numbered, hread] at hA
    cases reading with
    | none => cases hA
    | some r =>
      cases hdangling : r.dangling with
      | some failure => simp [Reading.finish, hdangling] at hA
      | none =>
        simp only [Reading.finish, hdangling] at hA
        obtain rfl := Except.ok.inj hA
        exact ⟨r, hread, hdangling, String.toList_ofList.symm, rfl⟩
  obtain ⟨hfilled, blanks, later, rfl, hblanks⟩ := List.find?_eq_some_iff_append.1 hline
  have hpads : ∀ l ∈ blanks, IsPad l := fun l hl => by
    simpa [IsPad] using hblanks l hl
  rw [← hbinary] at hname
  have hmeet := Reading.foldlM_first hcomplete hname A.length (1 + blanks.length) later
  have hsecond : (SourceLine.numbered 1 (blanks ++ line :: later)).foldlM Reading.readLine none =
      (SourceLine.numbered (1 + blanks.length) (line :: later)).foldlM Reading.readLine none := by
    rw [SourceLine.numbered_append, List.foldlM_append, Reading.foldlM_blank hpads]
    rfl
  have hboth : (SourceLine.numbered 1 (A ++ (blanks ++ line :: later))).foldlM
      Reading.readLine none =
        (SourceLine.numbered (1 + blanks.length + A.length) (line :: later)).foldlM
          Reading.readLine (some r) := by
    rw [SourceLine.numbered_append, List.foldlM_append, hread, SourceLine.numbered_append,
      Nat.add_right_comm]
    show List.foldlM _ _ (_ ++ _) = _
    rw [List.foldlM_append, Reading.foldlM_blank hpads]
    rfl
  rw [hforms] at hmeet
  rw [ofLines, ofLines, SourceLine.ofLines_eq_numbered, SourceLine.ofLines_eq_numbered, hboth,
    hmeet, hsecond]
  cases (SourceLine.numbered (1 + blanks.length) (line :: later)).foldlM Reading.readLine none with
  | error failure => rfl
  | ok reading =>
    cases reading with
    | none => exact congrArg Except.error (unnamedFailure_append A (by simp))
    | some r' => exact r'.finish_behind usage.variants A.length

/-! ## The text of the sections -/

/-- A section that is read, with another one behind it whose first line that is not blank
starts with the name of the same program: the forms of both are read, and a failure in the
second is reported with the number of its line in the whole. -/
theorem parse_appended {A B : List (List Char)} (hA : ∀ line ∈ A, IsLine line)
    (hB : ∀ line ∈ B, IsLine line) {usage : Usage}
    (hread : parse (String.ofList (terminated A)) = .ok usage) {line rest : List Char}
    (hline : B.find? (!·.all isLayout) = some line)
    (hname : binaryName? (indent line).rest = some ⟨usage.binary.toList, rest⟩) :
    (∀ forms, parse (String.ofList (terminated B)) = .ok ⟨usage.binary, forms⟩ →
      parse (String.ofList (terminated (A ++ B))) =
        .ok ⟨usage.binary, usage.variants ++ forms⟩) ∧
    ∀ failure, parse (String.ofList (terminated B)) = .error failure →
      parse (String.ofList (terminated (A ++ B))) =
        .error { failure with lineNumber := failure.lineNumber + A.length } := by
  have hparse : ∀ {ls : List (List Char)}, (∀ line ∈ ls, IsLine line) →
      parse (String.ofList (terminated ls)) = ofLines ls := by
    intro ls hls
    rw [parse, String.toList_ofList, lines_terminated hls]
  have hAB : ∀ line ∈ A ++ B, IsLine line := by
    intro l hl
    rcases List.mem_append.1 hl with hl | hl
    · exact hA l hl
    · exact hB l hl
  rw [hparse hA] at hread
  rw [hparse hB, hparse hAB, ofLines_append hread hline hname]
  constructor
  · intro forms hforms
    rw [hforms]
    rfl
  · intro failure hfailure
    rw [hfailure]
    rfl

/-- A form that is continued behind a bar, and a section that starts with a line of layout.
In the third section a bar is left at the end of a form; the failure is in its second line,
and in the fourth line behind the first section. -/
theorem parse_appended_behind_bar :
    parse "p a |\nb\n\t\n p c\np\n" =
        .ok ⟨"p", [⟨[.word "a", .bar none none, .word "b"]⟩, ⟨[.word "c"]⟩, ⟨[]⟩]⟩ ∧
      parse "p a |\nb\n\np c |\np d\n" =
        .error ⟨.emptiness, "empty alternative not allowed", "p c |", "", 4⟩ := by
  have hfirst : ∀ line ∈ ["p a |".toList, "b".toList], IsLine line := by
    decide
  have hread : parse (String.ofList (terminated ["p a |".toList, "b".toList])) =
      .ok ⟨"p", [⟨[.word "a", .bar none none, .word "b"]⟩]⟩ := by
    with_unfolding_all rfl
  have hsecond : ∀ line ∈ ["\t".toList, " p c".toList, "p".toList], IsLine line := by
    decide
  have hthird : ∀ line ∈ ["".toList, "p c |".toList, "p d".toList], IsLine line := by
    decide
  have hname : binaryName? (indent " p c".toList).rest = some ⟨"p".toList, " c".toList⟩ := rfl
  have hname' : binaryName? (indent "p c |".toList).rest = some ⟨"p".toList, " c |".toList⟩ := rfl
  constructor
  · refine (parse_appended hfirst hsecond hread rfl hname).1 _ ?_
    with_unfolding_all rfl
  · refine (parse_appended hfirst hthird hread rfl hname').2
      ⟨.emptiness, "empty alternative not allowed", "p c |", "", 2⟩ ?_
    with_unfolding_all rfl

end Usage

end Synopsis
