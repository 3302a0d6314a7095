import Synopsis.Proofs.Accounts

/-!
# Options sections one behind the other

When a section that is read is followed by another one whose first line opens a record, the
records of both are read, one behind the other.  A failure in the second section stays the same
but for the number of its line.

* From its first record on, a section has nothing to do with the records before it
  (`Reading.onto`).  This goes from one line (`readLine_onto`) to all lines (`foldlM_onto`).
* `readLine_opening` is the point where the sections meet.  A line that opens a record leaves
  the column of its own description, so the one that was carried over is gone.

`records_appended` is the result.
-/

namespace Synopsis

open Lexeme Text

namespace OptionRecord

namespace Reading

/-- The reading with other records before its own. -/
def onto (earlier : List OptionRecord) (r : Reading) : Reading :=
  { r with records := r.records ++ earlier }

section Onto

variable (earlier : List OptionRecord) {r : Reading}

theorem addFragment_onto (hr : r.records ≠ []) (fragment : List Char) :
    (r.onto earlier).addFragment fragment = (r.addFragment fragment).onto earlier := by
  obtain ⟨records, column⟩ := r
  cases records with
  | nil => exact absurd rfl hr
  | cons latest records => rfl

theorem readLine_onto (hr : r.records ≠ []) (line : SourceLine) :
    (r.onto earlier).readLine line = (r.readLine line).map (onto earlier) := by
  have hwraps : ∀ level, (r.onto earlier).wraps level = r.wraps level := fun _ => rfl
  simp only [readLine, hwraps]
  split
  · rw [addFragment_onto earlier hr]
    rfl
  · cases readHeading (indent line.text).rest with
    | error tail => rfl
    | ok heading =>
      simp only
      split
      · rw [addFragment_onto earlier hr]
        rfl
      · rfl

theorem records_ne_nil_of_readLine {r' : Reading} {line : SourceLine} (hr : r.records ≠ [])
    (h : r.readLine line = .ok r') : r'.records ≠ [] := by
  intro hempty
  have hnumbers : r'.numbers = [] := congrArg (List.map lineNumber) hempty
  rcases numbers_of_readLine h with hsame | hmore
  · exact hr (List.map_eq_nil_iff.1 (hsame.symm.trans hnumbers))
  · cases hmore.symm.trans hnumbers

theorem foldlM_onto (hr : r.records ≠ []) (ls : List SourceLine) :
    ls.foldlM readLine (r.onto earlier) = (ls.foldlM readLine r).map (onto earlier) := by
  induction ls generalizing r with
  | nil => rfl
  | cons line ls ih =>
    rw [List.foldlM_cons, List.foldlM_cons, readLine_onto earlier hr]
    cases hread : r.readLine line with
    | error failure => rfl
    | ok next => exact ih (records_ne_nil_of_readLine hr hread)

end Onto

/-! ## Where the sections meet -/

section Opening

variable {r : Reading} {line : List Char}

/-- A line that opens a record does so in the same way at the start of a section. -/
theorem Opens.start (h : r.Opens line) : Reading.start.Opens line :=
  ⟨rfl, h.named⟩

theorem readLine_opening (h : r.Opens line) (number : Nat) :
    r.readLine ⟨line, number⟩ = (Reading.start.readLine ⟨line, number⟩).map (onto r.records) := by
  simp only [readLine, h.free, h.start.free, Bool.false_eq_true, if_false]
  cases hread : readHeading (indent line).rest with
  | error tail => rfl
  | ok heading =>
    have hnames : heading.names ≠ [] := by
      rw [Ne, names_eq_nil_iff hread]
      exact Option.isSome_iff_ne_none.1 h.named
    simp only [List.isEmpty_iff, hnames, if_false]
    rfl

theorem records_ne_nil_of_opening {r' : Reading} {number : Nat} (h : r.Opens line)
    (hread : r.readLine ⟨line, number⟩ = .ok r') : r'.records ≠ [] := by
  cases step_of_readLine hread with
  | fragment hcloses => exact absurd h hcloses
  | record _ _ => exact List.cons_ne_nil _ _

/-- A section whose first line opens a record is read further down as at the start. -/
theorem foldlM_opening (h : r.Opens line) (count : Nat) (ls : List (List Char)) :
    (SourceLine.numbered (1 + count) (line :: ls)).foldlM readLine r =
      relocated count (fun last => (last.moved count).onto r.records)
        ((SourceLine.numbered 1 (line :: ls)).foldlM readLine .start) := by
  have hstart : (SourceLine.numbered (1 + count) (line :: ls)).foldlM readLine r =
      ((SourceLine.numbered (1 + count) (line :: ls)).foldlM readLine .start).map
        (onto r.records) := by
    rw [SourceLine.numbered, List.foldlM_cons, List.foldlM_cons, readLine_opening h]
    cases hread : Reading.start.readLine ⟨line, 1 + count⟩ with
    | error failure => rfl
    | ok next => exact foldlM_onto r.records (records_ne_nil_of_opening h.start hread) _
  have hmoved := foldlM_moved count 1 (line :: ls) .start
  rw [hstart, show Reading.start = Reading.start.moved count from rfl, hmoved, relocated_map]
  rfl

end Opening

end Reading

/-! ## The text of the sections -/

/-- The line opens a record behind a section that is read, by what its last record says. -/
theorem opens_of_accounts {ls : List (List Char)} {r : Reading} {line : List Char}
    (h : Accounts ls r.records.reverse r.column)
    (hnamed : (optionName? (indent line).rest).isSome = true)
    (hleft : ∀ latest ∈ r.records.reverse.getLast?, ∀ column, DescribedAt ls latest column →
      byteWidth (indent line).taken < column) : r.Opens line := by
  refine opensAt_iff.1 ⟨hnamed, fun start hstart => ?_⟩
  obtain ⟨hcolumn, hnone⟩ := h.column_eq
  cases hlast : r.records.reverse.getLast? with
  | none =>
    rw [hnone (List.getLast?_eq_none_iff.1 hlast)] at hstart
    cases hstart
  | some latest =>
    have hlt := hleft latest hlast start ((hcolumn latest hlast start).2 hstart)
    rwa [byteWidth_of_isPad (indent_taken_isPad line)] at hlt

/-- The lines of a section that is read, followed by lines the first of which opens a record:
the records of both are read. -/
theorem ofLines_append {A B : List (List Char)} {first : List Char} {earlier : List OptionRecord}
    (hA : ofLines A = .ok earlier) (hnamed : (optionName? (indent first).rest).isSome = true)
    (hleft : ∀ latest ∈ earlier.getLast?, ∀ column, DescribedAt A latest column →
      byteWidth (indent first).taken < column) :
    ofLines (A ++ first :: B) =
      relocated A.length (fun later => earlier ++ later.map (moved A.length))
        (ofLines (first :: B)) := by
  obtain ⟨r, hfold, rfl⟩ := exists_reading hA
  have hopens := opens_of_accounts (accounts_of_foldlM hfold) hnamed hleft
  have hboth : (SourceLine.numbered 1 (A ++ first :: B)).foldlM Reading.readLine .start =
      (SourceLine.numbered (1 + A.length) (first :: B)).foldlM Reading.readLine r := by
    rw [SourceLine.numbered_append, List.foldlM_append, hfold]
    rfl
  rw [ofLines, ofLines, SourceLine.ofLines_eq_numbered, SourceLine.ofLines_eq_numbered, hboth,
    Reading.foldlM_opening hopens, relocated_map, relocated_of_map]
  congr 1
  funext last
  simp [Reading.onto, Reading.moved]

/-- A section that is read, with another one behind it whose first line opens a record: it
starts with an option name, left of the description of the record before it, if a gap sets one
off there, an empty one at the end of its line too.  The records of both are read, and a failure
in the second section is reported with the number of its line in the whole. -/
theorem records_appended {A B : List (List Char)} {first : List Char}
    (hA : ∀ line ∈ A, IsLine line) (hB : ∀ line ∈ first :: B, IsLine line)
    {earlier : List OptionRecord} (hread : parse (String.ofList (terminated A)) = .ok earlier)
    (hnamed : (optionName? (indent first).rest).isSome = true)
    (hleft : ∀ latest ∈ earlier.getLast?, ∀ column, DescribedAt A latest column →
      byteWidth (indent first).taken < column) :
    (∀ later, parse (String.ofList (terminated (first :: B))) = .ok later →
      parse (String.ofList (terminated (A ++ first :: B))) =
        .ok (earlier ++ later.map (moved A.length))) ∧
    ∀ failure, parse (String.ofList (terminated (first :: B))) = .error failure →
      parse (String.ofList (terminated (A ++ first :: B))) =
        .error { failure with lineNumber := failure.lineNumber + A.length } := by
  have hparse : ∀ {ls : List (List Char)}, (∀ line ∈ ls, IsLine line) →
      parse (String.ofList (terminated ls)) = ofLines ls := by
    intro ls hls
    rw [parse, String.toList_ofList, lines_terminated hls]
  have hboth : ∀ line ∈ A ++ first :: B, IsLine line := by
    intro line hline
    rcases List.mem_append.1 hline with hline | hline
    · exact hA line hline
    · exact hB line hline
  rw [hparse hA] at hread
  rw [hparse hB, hparse hboth, ofLines_append hread hnamed hleft]
  constructor
  · intro later hlater
    rw [hlater]
    rfl
  · intro failure hfailure
    rw [hfailure]
    rfl

/-- A record with an aligned line behind it, and a section that starts left of its description.
In one case it is read, in the other one it fails in its second line. -/
theorem records_appended_left_of_description :
    parse "  -n=<x>  Max\n          -1 for all\n       -q\n\t-v, --w  Also\n" =
        .ok [⟨["-n"], some "<x>", 2, ["Max", "-1 for all"], 1⟩, ⟨["-q"], none, 7, [""], 3⟩,
          ⟨["-v", "--w"], none, 1, ["Also"], 4⟩] ∧
      parse "  -n=<x>  Max\n          -1 for all\n       -q\n-v;w\n" =
        .error ⟨.malformedOption,
          "expected two or more spaces or option definition, but none found", "-v;w", ";w", 4⟩ := by
  have hA : ∀ line ∈ ["  -n=<x>  Max".toList, "          -1 for all".toList], IsLine line := by
    decide
  have hsecond : ∀ line ∈ ["       -q".toList, "\t-v, --w  Also".toList], IsLine line := by
    decide
  have hthird : ∀ line ∈ ["       -q".toList, "-v;w".toList], IsLine line := by
    decide
  have hread : parse (String.ofList (terminated
      ["  -n=<x>  Max".toList, "          -1 for all".toList])) =
        .ok [⟨["-n"], some "<x>", 2, ["Max", "-1 for all"], 1⟩] := by
    with_unfolding_all rfl
  have hdefines : Defines "  -n=<x>  Max".toList
      [⟨"-n".toList, "=".toList, some "<x>".toList, "  Max".toList⟩]
      (some (byteWidth "  -n=<x>  ".toList)) "Max".toList := by
    refine .described (.last rfl ?_) (@Trailing.gap _ ⟨"  ".toList, "Max".toList⟩ rfl) rfl
    intro cut hcut
    obtain rfl := Option.some.inj hcut
    rfl
  have hnamed : (optionName? (indent "       -q".toList).rest).isSome = true := rfl
  have hleft : ∀ latest ∈ [OptionRecord.mk ["-n"] (some "<x>") 2 ["Max", "-1 for all"] 1].getLast?,
      ∀ column, DescribedAt ["  -n=<x>  Max".toList, "          -1 for all".toList] latest column →
        byteWidth (indent "       -q".toList).taken < column := by
    rintro latest hlatest column ⟨line, uses, description, hline, hcolumn⟩
    obtain rfl := Option.some.inj hlatest
    obtain rfl := Option.some.inj hline
    obtain rfl := Option.some.inj (hdefines.column_unique hcolumn)
    decide
  constructor
  · refine (records_appended hA hsecond hread hnamed hleft).1
      [⟨["-q"], none, 7, [""], 1⟩, ⟨["-v", "--w"], none, 1, ["Also"], 2⟩] ?_
    with_unfolding_all rfl
  · refine (records_appended hA hthird hread hnamed hleft).2 ⟨.malformedOption,
      "expected two or more spaces or option definition, but none found", "-v;w", ";w", 2⟩ ?_
    with_unfolding_all rfl

end OptionRecord

end Synopsis
