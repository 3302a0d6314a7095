import Synopsis.Help.Sections
import Synopsis.Proofs.Headings
import Synopsis.Proofs.Padding

/-!
# What an options section opens with

The options section of a document starts at a line whose first word is an option name
(`Help.definesOption`).  Whether this line opens a record is decided anew when the section is
read.  The first decision passes over blanks of every kind, the second over spaces and tabs
only, so the two agree when nothing else stands before the name (`named_iff`).

* `Reading.numbers` are the line numbers of the records.  A line keeps them and adds its own
  at most (`numbers_of_readLine`), so they tell which lines have opened records.
* `exists_block` and `definesOption_of_return` follow the first line of the section from the
  document into the section's own text.
* `first_record_iff` says when the first record is one of the first line.

`no_record_behind_wide_space` is a document with a section that no record is read from.
-/

namespace Synopsis

open Lexeme Text

/-! ## Blanks before a name -/

namespace Help

variable {line : List Char}

theorem exists_dash_of_isSome {s : List Char} (h : (optionName? s).isSome = true) :
    ∃ name, s = '-' :: name := by
  obtain ⟨cut, hcut⟩ := Option.isSome_iff_exists.1 h
  obtain ⟨name, hname⟩ := exists_dash_of_optionName? hcut
  have hline : cut.taken ++ cut.rest = s := (takes_of_optionName? hcut).1
  rw [← hline, hname]
  exact ⟨_, rfl⟩

theorem isBlankLine_of_definesOption (h : definesOption line = true) :
    isBlankLine line = false := by
  obtain ⟨name, hname⟩ := exists_dash_of_isSome h
  cases hblank : isBlankLine line with
  | false => rfl
  | true =>
    have hdash : '-' ∈ trimStart line := by
      rw [hname]
      exact List.mem_cons_self
    cases List.all_eq_true.1 hblank '-' ((List.dropWhile_suffix isBlank).mem hdash)

/-- A carriage return behind a line does not make it define an option. -/
theorem definesOption_of_return (h : definesOption (line ++ ['\r']) = true) :
    definesOption line = true := by
  have hreturn : trimStart ['\r'] = [] := by decide
  unfold definesOption at h ⊢
  rw [trimStart, List.dropWhile_append] at h
  split at h
  · rw [show List.dropWhile isBlank ['\r'] = [] from hreturn] at h
    cases h
  · rename_i hfilled
    cases hname : optionName? (trimStart line) with
    | some cut => rfl
    | none =>
      have hne : trimStart line ≠ [] := by simpa [trimStart] using hfilled
      have hends : ∀ c ∈ ['\r'].head?, isOptionChar c = false := by
        rintro c ⟨⟩
        rfl
      have hnone : optionName? (trimStart line ++ ['\r']) = none :=
        optionName?_append_eq_none (r := []) hne (by simpa using hname) hends (by decide)
      rw [show List.dropWhile isBlank line = trimStart line from rfl, hnone] at h
      cases h

/-- A line that defines an option has its name behind the indentation exactly when no blanks
stand before the name but spaces and tabs. -/
theorem named_iff (h : definesOption line = true) :
    (optionName? (indent line).rest).isSome = true ↔
      ∀ c ∈ line.takeWhile isBlank, isLayout c = true := by
  obtain ⟨name, hname⟩ := exists_dash_of_isSome h
  have hblanks : line.takeWhile isBlank ++ trimStart line = line :=
    List.takeWhile_append_dropWhile
  have hlayout : (indent line).taken ++ (indent line).rest = line := Cut.run_isOf _ line
  constructor
  · intro hsome
    obtain ⟨name', hname'⟩ := exists_dash_of_isSome hsome
    have hpad := indent_taken_isPad line
    have hsame : line.takeWhile isBlank = (indent line).taken := by
      rw [← hlayout, hname', List.takeWhile_append_of_pos hpad.isBlank,
        List.takeWhile_cons_of_neg (by decide), List.append_nil, ← hname', hlayout]
    rw [hsame]
    exact hpad
  · intro hpad
    have hrest : (indent line).rest = trimStart line := by
      show line.dropWhile isLayout = trimStart line
      rw [← hblanks, List.dropWhile_append_of_pos hpad, hblanks, hname]
      rfl
    rw [hrest]
    exact h

end Help

/-! ## The first line of the section -/

namespace Help

theorem afterHeader?_suffix {ls later : List (List Char)} {first : List Char}
    (h : afterHeader? ls = some (first, later)) : later <:+ ls := by
  induction ls with
  | nil => cases h
  | cons line ls ih =>
    rw [afterHeader?] at h
    split at h
    · obtain ⟨-, rfl⟩ := Prod.mk.inj (Option.some.inj h)
      exact List.suffix_cons line ls
    · exact (ih h).trans (List.suffix_cons line ls)

theorem dropBlankEnd_cons {first : List Char} (h : isBlankLine first = false)
    (ls : List (List Char)) : ∃ more, dropBlankEnd (first :: ls) = first :: more := by
  rw [dropBlankEnd, List.reverse_cons, List.dropWhile_append]
  split
  · exact ⟨[], by simp [h]⟩
  · exact ⟨_, by rw [List.reverse_append]; rfl⟩

/-- The options section of a document is a block of its lines that starts with one that
defines an option. -/
theorem exists_block {document usage options : String}
    (h : Sections.ofDocument? document = some ⟨usage, some options⟩) :
    ∃ first more, options = String.ofList (joinLines (first :: more)) ∧
      definesOption first = true ∧ first ∈ Text.lines document.toList := by
  obtain ⟨⟨header, later⟩, hheader, hsections⟩ := Option.map_eq_some_iff.1 h
  obtain ⟨-, hoptions⟩ := Sections.mk.inj hsections
  obtain ⟨block, hblock, rfl⟩ := Option.map_eq_some_iff.1 hoptions
  unfold optionLines? at hblock
  split at hblock
  · cases hblock
  · rename_i first rest hdrop
    obtain rfl := Option.some.inj hblock
    have hdefines : definesOption first = true := by
      have hhead := List.head?_dropWhile_not (!definesOption ·) (linesAfterUsage later)
      rw [hdrop] at hhead
      simpa using hhead
    have hmem : first ∈ linesAfterUsage later :=
      (List.dropWhile_suffix _).mem (hdrop ▸ List.mem_cons_self)
    have hsuffix : linesAfterUsage later <:+ Text.lines document.toList :=
      ((List.drop_suffix 1 _).trans (List.dropWhile_suffix _)).trans (afterHeader?_suffix hheader)
    obtain ⟨more, hmore⟩ := dropBlankEnd_cons (isBlankLine_of_definesOption hdefines)
      (rest.takeWhile staysInOptions)
    exact ⟨first, more, by rw [hmore], hdefines, hsuffix.mem hmem⟩

end Help

/-! ## The numbers of the records -/

namespace OptionRecord

namespace Reading

/-- The line numbers of the records, the latest first. -/
def numbers (r : Reading) : List Nat :=
  r.records.map (·.lineNumber)

theorem numbers_addFragment (r : Reading) (fragment : List Char) :
    (r.addFragment fragment).numbers = r.numbers := by
  obtain ⟨records, column⟩ := r
  cases records <;> rfl

theorem numbers_addRecord (r : Reading) (line : SourceLine) (level : Nat)
    (heading : Heading) : (r.addRecord line level heading).numbers = line.number :: r.numbers :=
  numbers_addFragment _ _

theorem numbers_of_readLine {r r' : Reading} {line : SourceLine} (h : r.readLine line = .ok r') :
    r'.numbers = r.numbers ∨ r'.numbers = line.number :: r.numbers := by
  cases step_of_readLine h with
  | fragment _ => exact Or.inl (numbers_addFragment r _)
  | record _ _ => exact Or.inr (numbers_addRecord r line _ _)

/-- Lines add numbers of their own before those that are there. -/
theorem numbers_of_foldlM {ls : List (List Char)} {number : Nat} {r r' : Reading}
    (h : (SourceLine.numbered number ls).foldlM readLine r = .ok r') :
    ∃ added, r'.numbers = added ++ r.numbers ∧ ∀ n ∈ added, number ≤ n := by
  induction ls generalizing r number with
  | nil =>
    obtain rfl := Except.ok.inj h
    exact ⟨[], rfl, by simp⟩
  | cons line ls ih =>
    rw [SourceLine.numbered, List.foldlM_cons] at h
    obtain ⟨next, hfirst, hlater⟩ := exists_of_bind h
    obtain ⟨added, hnumbers, hadded⟩ := ih hlater
    have hle : ∀ n ∈ added, number ≤ n := fun n hn => Nat.le_of_succ_le (hadded n hn)
    rcases numbers_of_readLine hfirst with hsame | hmore
    · exact ⟨added, by rw [hnumbers, hsame], hle⟩
    · refine ⟨added ++ [number], by rw [hnumbers, hmore]; simp, fun n hn => ?_⟩
      rcases List.mem_append.1 hn with hn | hn
      · exact hle n hn
      · exact Nat.le_of_eq (List.mem_singleton.1 hn).symm

end Reading

theorem exists_reading {ls : List (List Char)} {records : List OptionRecord}
    (h : ofLines ls = .ok records) :
    ∃ r, (SourceLine.numbered 1 ls).foldlM Reading.readLine .start = .ok r ∧
      records = r.records.reverse := by
  rw [ofLines, SourceLine.ofLines_eq_numbered] at h
  cases hfold : (SourceLine.numbered 1 ls).foldlM Reading.readLine .start with
  | error failure =>
    rw [hfold] at h
    cases h
  | ok r =>
    rw [hfold] at h
    exact ⟨r, rfl, (Except.ok.inj h).symm⟩

/-- The first record is one of the first line exactly when this line has an option name
behind its indentation. -/
theorem first_number_iff {first : List Char} {more : List (List Char)}
    {records : List OptionRecord} (h : ofLines (first :: more) = .ok records) :
    (∃ record later, records = record :: later ∧ record.lineNumber = 1) ↔
      (optionName? (indent first).rest).isSome = true := by
  obtain ⟨r, hfold, hrecords⟩ := exists_reading h
  rw [SourceLine.numbered, List.foldlM_cons] at hfold
  obtain ⟨next, hfirst, hlater⟩ := exists_of_bind hfold
  obtain ⟨added, hnumbers, hadded⟩ := Reading.numbers_of_foldlM hlater
  have hinOrder : records.map (·.lineNumber) = next.numbers.reverse ++ added.reverse := by
    rw [hrecords, List.map_reverse, ← List.reverse_append, ← hnumbers]
    rfl
  cases Reading.step_of_readLine hfirst with
  | fragment hcloses =>
    constructor
    · rintro ⟨record, later, rfl, hone⟩
      -- The numbers are those of later lines.
      have hmem : record.lineNumber ∈ added.reverse := by
        rw [Reading.numbers_addFragment] at hinOrder
        rw [show added.reverse = _ from hinOrder.symm]
        exact List.mem_cons_self
      have hle := hadded _ (List.mem_reverse.1 hmem)
      omega
    · exact fun hnamed => absurd ⟨rfl, hnamed⟩ hcloses
  | record hopens _ =>
    refine iff_of_true ?_ hopens.named
    rw [Reading.numbers_addRecord] at hinOrder
    obtain ⟨record, later, rfl, hone, -⟩ := List.map_eq_cons_iff.1 hinOrder
    exact ⟨record, later, rfl, hone⟩

end OptionRecord

/-! ## The first record of a document -/

/-- When the options section of a document can be read, its first record is one of its first
line exactly when that line has nothing but spaces and tabs before its name. -/
theorem first_record_iff {document usage options : String}
    (h : Help.Sections.ofDocument? document = some ⟨usage, some options⟩) :
    ∃ first more, Text.lines options.toList = first :: more ∧
      Help.definesOption first = true ∧
        ∀ records, OptionRecord.parse options = .ok records →
          ((∃ record later, records = record :: later ∧ record.lineNumber = 1) ↔
            ∀ c ∈ first.takeWhile isBlank, isLayout c = true) := by
  obtain ⟨written, block, rfl, hwritten, hmem⟩ := Help.exists_block h
  have hne : written ≠ [] := by
    rintro rfl
    cases hwritten
  obtain ⟨first, more, hlines, hfirst⟩ :=
    exists_lines_joinLines (not_mem_of_mem_lines hmem) hne block
  have hdefines : Help.definesOption first = true := by
    rcases hfirst with rfl | rfl
    · exact hwritten
    · exact Help.definesOption_of_return hwritten
  refine ⟨first, more, by rw [String.toList_ofList, hlines], hdefines, fun records hread => ?_⟩
  rw [OptionRecord.parse, String.toList_ofList, hlines] at hread
  rw [OptionRecord.first_number_iff hread, Help.named_iff hdefines]

theorem first_record_behind_tab :
    Help.Sections.ofDocument? "Usage: prog\n\n\t -q  Quiet." =
        some ⟨"prog", some "\t -q  Quiet."⟩ ∧
      ∃ record later, OptionRecord.parse "\t -q  Quiet." = .ok (record :: later) ∧
        record.lineNumber = 1 := by
  have hsections : Help.Sections.ofDocument? "Usage: prog\n\n\t -q  Quiet." =
      some ⟨"prog", some "\t -q  Quiet."⟩ := by with_unfolding_all rfl
  have hread : OptionRecord.parse "\t -q  Quiet." = .ok [⟨["-q"], none, 2, ["Quiet."], 1⟩] := by
    with_unfolding_all rfl
  obtain ⟨first, more, hlines, -, hiff⟩ := first_record_iff hsections
  obtain ⟨rfl, -⟩ := List.cons.inj
    (hlines.symm.trans (show Text.lines "\t -q  Quiet.".toList = ["\t -q  Quiet.".toList] from rfl))
  obtain ⟨record, later, hrecords, hone⟩ := (hiff _ hread).2 (List.all_eq_true.1 rfl)
  exact ⟨hsections, record, later, hrecords ▸ hread, hone⟩

/-- A no-break space before the name: the section is there, and nothing is read from it. -/
theorem no_record_behind_wide_space :
    Help.Sections.ofDocument? "Usage: prog\n\n\u00a0-q  Quiet." =
        some ⟨"prog", some "\u00a0-q  Quiet."⟩ ∧
      OptionRecord.parse "\u00a0-q  Quiet." = .ok [] := by
  constructor
  · with_unfolding_all rfl
  · with_unfolding_all rfl

end Synopsis
