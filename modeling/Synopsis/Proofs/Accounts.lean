import Synopsis.Proofs.Definitions
import Synopsis.Proofs.Openings

/-!
# The lines of each record

The lines of an options section are divided among the records.  Each record has the line that
defines it and the lines behind this one, up to the line that defines the next record.  Only
the lines before the first record have no part in it.

* `Accounts` divides the lines.  What is carried from line to line is the column of the latest
  description, since a line opens a record only left of it (`OpensAt`).
* `accounts_readLine` is the step and `accounts_foldlM` the run; what they say of single
  records and lines is read off `Accounts` afterwards, by induction on the records.

`parse_accounts` is the result.
-/

namespace Synopsis

open Lexeme Text

namespace OptionRecord

/-! ## Lines divided among the records -/

/-- The line starts with a name, left of the column of the latest description. -/
structure OpensAt (column : Option Nat) (line : List Char) : Prop where
  named : (optionName? (indent line).rest).isSome = true
  left : ∀ start ∈ column, (indent line).taken.length < start

/-- A line as it stands in a description: without the layout before it, and without the blanks
behind it. -/
def fragment (text : List Char) : String :=
  String.ofList (trimEnd text)

/-- The record of a line with this number that has these names and this description.  The
further lines have a fragment of the description each. -/
def recordOf (number : Nat) (line : List Char) (uses : List OptionUse)
    (description : List Char) (further : List (List Char)) : OptionRecord where
  names := uses.map fun use => String.ofList use.name
  value := (lastValue uses).map String.ofList
  level := (indent line).taken.length
  fragments := fragment description :: further.map fun l => fragment (indent l).rest
  lineNumber := number

/-- The lines of a section, divided among its records: lines without a name, and for each
record the line that defines it and the lines that open no other one.  The number is the
column of the latest description. -/
inductive Accounts : List (List Char) → List OptionRecord → Option Nat → Prop
  | preface {ls : List (List Char)}
      (hnone : ∀ line ∈ ls, optionName? (indent line).rest = none) : Accounts ls [] none
  | block {before further : List (List Char)} {records : List OptionRecord}
      {column column' : Option Nat} {line description : List Char} {uses : List OptionUse}
      (hbefore : Accounts before records column) (hopens : OpensAt column line)
      (hdefines : Defines line uses column' description)
      (hfurther : ∀ l ∈ further, ¬ OpensAt column' l) :
      Accounts (before ++ line :: further)
        (records ++ [recordOf (before.length + 1) line uses description further]) column'

theorem byteWidth_of_isPad {pad : List Char} (h : IsPad pad) : byteWidth pad = pad.length := by
  refine byteWidth_of_ascii fun c hc => ?_
  rcases isLayout_iff.1 (h c hc) with rfl | rfl <;> decide

theorem opensAt_iff {r : Reading} {line : List Char} : OpensAt r.column line ↔ r.Opens line := by
  have hwidth := byteWidth_of_isPad (indent_taken_isPad line)
  have hfree : r.wraps (byteWidth (indent line).taken) = false ↔
      ∀ start ∈ r.column, (indent line).taken.length < start := by
    rw [hwidth, Reading.wraps]
    cases r.column <;> simp
  constructor
  · intro h
    exact ⟨hfree.2 h.left, h.named⟩
  · intro h
    exact ⟨h.named, hfree.1 h.free⟩

theorem addRecord_eq (r : Reading) (line : SourceLine) {heading : Heading}
    {uses : List OptionUse} (hnames : heading.names = uses.map (·.name))
    (hvalue : heading.value = lastValue uses) :
    r.addRecord line (byteWidth (indent line.text).taken) heading =
      ⟨recordOf line.number line.text uses heading.rest [] :: r.records,
        if heading.described then some (byteWidth line.text - byteWidth heading.rest)
        else none⟩ := by
  have hwidth := byteWidth_of_isPad (indent_taken_isPad line.text)
  simp [Reading.addRecord, Reading.addFragment, recordOf, fragment, hnames, hvalue, hwidth,
    Function.comp_def]

/-- One more line is one more of the latest record, or it opens a record of its own. -/
theorem accounts_readLine {ls : List (List Char)} {r r' : Reading} {line : List Char}
    (h : Accounts ls r.records.reverse r.column)
    (hread : r.readLine ⟨line, ls.length + 1⟩ = .ok r') :
    Accounts (ls ++ [line]) r'.records.reverse r'.column := by
  cases Reading.step_of_readLine hread with
  | fragment hcloses =>
    have hstays : ¬ OpensAt r.column line := fun hopens => hcloses (opensAt_iff.1 hopens)
    obtain ⟨latestFirst, column⟩ := r
    generalize hrecords : latestFirst.reverse = records at h
    cases h with
    | preface hnone =>
      obtain rfl := List.reverse_eq_nil_iff.1 hrecords
      refine .preface fun l hl => ?_
      rcases List.mem_append.1 hl with hl | hl
      · exact hnone l hl
      · obtain rfl := List.mem_singleton.1 hl
        cases hname : optionName? (indent l).rest with
        | none => rfl
        | some name =>
          have hnamed : (optionName? (indent l).rest).isSome = true := by rw [hname]; rfl
          exact absurd ⟨hnamed, by simp⟩ hstays
    | @block before further earlier column' _ first description uses hbefore hopens hdefines
        hfurther =>
      -- The fragment is the last one of the latest record.
      have hlatest : latestFirst =
          recordOf (before.length + 1) first uses description further :: earlier.reverse := by
        rw [← List.reverse_reverse latestFirst, hrecords, List.reverse_concat]
      have hmore : ∀ l ∈ further ++ [line], ¬ OpensAt column l := by
        intro l hl
        rcases List.mem_append.1 hl with hl | hl
        · exact hfurther l hl
        · obtain rfl := List.mem_singleton.1 hl
          exact hstays
      have hblock := Accounts.block hbefore hopens hdefines hmore
      subst hlatest
      simpa [Reading.addFragment, recordOf, fragment] using hblock
  | @record heading hopens hheading =>
    obtain ⟨uses, hnames, hvalue, hdefines⟩ := defines_of_readHeading hheading hopens.named
    rw [addRecord_eq r _ hnames hvalue, List.reverse_cons]
    exact .block h (opensAt_iff.2 hopens) hdefines (by simp)

/-- A run divides all its lines. -/
theorem accounts_foldlM {ls more : List (List Char)} {r r' : Reading}
    (h : Accounts ls r.records.reverse r.column)
    (hread : (SourceLine.numbered (ls.length + 1) more).foldlM Reading.readLine r = .ok r') :
    Accounts (ls ++ more) r'.records.reverse r'.column := by
  induction more generalizing ls r with
  | nil =>
    obtain rfl := Except.ok.inj hread
    rwa [List.append_nil]
  | cons line more ih =>
    rw [SourceLine.numbered, List.foldlM_cons] at hread
    obtain ⟨next, hfirst, hlater⟩ := exists_of_bind hread
    have hnext := ih (accounts_readLine h hfirst) (by simpa using hlater)
    simpa using hnext

/-! ## What this says of each record and each line -/

namespace Accounts

variable {ls : List (List Char)} {records : List OptionRecord} {column : Option Nat}

theorem number_bounds (h : Accounts ls records column) :
    ∀ record ∈ records, 1 ≤ record.lineNumber ∧ record.lineNumber ≤ ls.length := by
  induction h with
  | preface _ => simp
  | block _ _ _ _ ih =>
    intro record hrecord
    rw [List.length_append, List.length_cons]
    rcases List.mem_append.1 hrecord with hrecord | hrecord
    · have hbounds := ih record hrecord
      omega
    · obtain rfl := List.mem_singleton.1 hrecord
      simp only [recordOf]
      omega

theorem increasing (h : Accounts ls records column) :
    records.Pairwise (·.lineNumber < ·.lineNumber) := by
  induction h with
  | preface _ => exact .nil
  | block hbefore _ _ _ ih =>
    rw [List.pairwise_append]
    refine ⟨ih, List.pairwise_singleton _ _, fun record hrecord new hnew => ?_⟩
    obtain rfl := List.mem_singleton.1 hnew
    exact Nat.lt_succ_of_le (hbefore.number_bounds record hrecord).2

/-- The lines of a record go on up to the next record, or to the end. -/
theorem count (h : Accounts ls records column) {k : Nat} {record : OptionRecord}
    (hk : records[k]? = some record) :
    record.lineNumber + record.fragments.length =
      (records[k + 1]?.map (·.lineNumber)).getD (ls.length + 1) := by
  induction h generalizing k with
  | preface _ => simp at hk
  | @block before further earlier _ _ line description uses hbefore _ _ _ ih =>
    obtain ⟨hlt, -⟩ := List.getElem?_eq_some_iff.1 hk
    rw [List.length_append, List.length_singleton] at hlt
    rcases Nat.lt_or_ge k earlier.length with hearlier | hlatest
    · rw [List.getElem?_append_left hearlier] at hk
      rw [ih hk]
      rcases Nat.lt_or_ge (k + 1) earlier.length with hnext | hnext
      · rw [List.getElem?_append_left hnext, List.getElem?_eq_getElem hnext]
        rfl
      · -- The new record is the next one.
        have hlength : earlier.length = k + 1 := by omega
        rw [← hlength, List.getElem?_eq_none (Nat.le_refl _), List.getElem?_concat_length]
        rfl
    · obtain rfl : k = earlier.length := by omega
      obtain rfl : recordOf (before.length + 1) line uses description further = record := by
        simpa using hk
      rw [List.getElem?_eq_none (by simp)]
      simp only [recordOf, List.length_cons, List.length_map, List.length_append,
        Option.map_none, Option.getD_none]
      omega

end Accounts

/-- The record has a block of lines: one that defines it, with the lines behind this one. -/
inductive HasBlock (ls : List (List Char)) : OptionRecord → Prop
  | block {before further after : List (List Char)} {line description : List Char}
      {uses : List OptionUse} {column : Option Nat}
      (hlines : ls = before ++ line :: (further ++ after))
      (hdefines : Defines line uses column description) :
      HasBlock ls (recordOf (before.length + 1) line uses description further)

theorem Accounts.hasBlock {ls : List (List Char)} {records : List OptionRecord}
    {column : Option Nat} (h : Accounts ls records column) (more : List (List Char)) :
    ∀ record ∈ records, HasBlock (ls ++ more) record := by
  induction h generalizing more with
  | preface _ => simp
  | block _ _ hdefines _ ih =>
    intro record hrecord
    rcases List.mem_append.1 hrecord with hrecord | hrecord
    · rw [List.append_assoc]
      exact ih _ record hrecord
    · obtain rfl := List.mem_singleton.1 hrecord
      rw [List.append_assoc, List.cons_append]
      exact .block rfl hdefines

/-- The latest of the records that are defined before the line with this number. -/
def latestBefore (records : List OptionRecord) (number : Nat) : Option OptionRecord :=
  (records.filter (·.lineNumber < number)).getLast?

/-- The description of the record starts at this column of its line, behind a gap. -/
def DescribedAt (ls : List (List Char)) (record : OptionRecord) (column : Nat) : Prop :=
  ∃ line uses description, ls[record.lineNumber - 1]? = some line ∧
    Defines line uses (some column) description

/-- The line opens a record, by what has been read before it. -/
structure OpensRecord (ls : List (List Char)) (records : List OptionRecord) (number : Nat)
    (line : List Char) : Prop where
  named : (optionName? (indent line).rest).isSome = true
  left : ∀ latest ∈ latestBefore records number, ∀ column, DescribedAt ls latest column →
    (indent line).taken.length < column

namespace Accounts

variable {ls : List (List Char)} {records : List OptionRecord} {column : Option Nat}

/-- The column that is carried on is the one of the latest record. -/
theorem column_eq (h : Accounts ls records column) :
    (∀ latest ∈ records.getLast?, ∀ start, DescribedAt ls latest start ↔ start ∈ column) ∧
      (records = [] → column = none) := by
  cases h with
  | preface _ => simp
  | @block before further _ _ _ line description uses _ _ hdefines _ =>
    refine ⟨fun latest hlatest start => ?_, by simp⟩
    obtain rfl : recordOf (before.length + 1) line uses description further = latest := by
      simpa using hlatest
    have hline : (before ++ line :: further)[before.length + 1 - 1]? = some line := by
      simp
    constructor
    · rintro ⟨line', uses', description', hline', hdefines'⟩
      obtain rfl := Option.some.inj (hline.symm.trans hline')
      exact hdefines.column_unique hdefines'
    · intro hstart
      rw [Option.mem_def.1 hstart] at hdefines
      exact ⟨line, uses, description, hline, hdefines⟩

/-- A line behind all records opens one when it starts left of the latest description. -/
theorem opensRecord_iff (h : Accounts ls records column) {number : Nat}
    (hbehind : ∀ record ∈ records, record.lineNumber < number) (line : List Char) :
    OpensRecord ls records number line ↔ OpensAt column line := by
  obtain ⟨hlatest, hnone⟩ := h.column_eq
  have hlast : latestBefore records number = records.getLast? := by
    rw [latestBefore, List.filter_eq_self.2 (by simpa using hbehind)]
  have hleft : (∀ latest ∈ latestBefore records number, ∀ start,
      DescribedAt ls latest start → (indent line).taken.length < start) ↔
        ∀ start ∈ column, (indent line).taken.length < start := by
    rw [hlast]
    cases hget : records.getLast? with
    | none => simp [hnone (List.getLast?_eq_none_iff.1 hget)]
    | some latest => simp [hlatest latest hget]
  exact ⟨fun h => ⟨h.named, hleft.1 h.left⟩, fun h => ⟨h.named, hleft.2 h.left⟩⟩

/-- Whether a line opens a record is a matter of the lines and the records before it. -/
theorem opensRecord_append (h : Accounts ls records column) (more : List (List Char))
    {added : List OptionRecord} {number : Nat}
    (hadded : ∀ record ∈ added, number ≤ record.lineNumber) (line : List Char) :
    OpensRecord (ls ++ more) (records ++ added) number line ↔
      OpensRecord ls records number line := by
  have hnone : added.filter (·.lineNumber < number) = [] := by
    rw [List.filter_eq_nil_iff]
    intro record hrecord
    have hle := hadded record hrecord
    simpa using hle
  have hlatest : latestBefore (records ++ added) number = latestBefore records number := by
    rw [latestBefore, List.filter_append, hnone, List.append_nil, latestBefore]
  have hdescribed : ∀ latest ∈ latestBefore records number, ∀ start,
      DescribedAt (ls ++ more) latest start ↔ DescribedAt ls latest start := by
    intro latest hget start
    have hmem : latest ∈ records := (List.mem_filter.1 (List.mem_of_getLast? hget)).1
    have hbounds := h.number_bounds latest hmem
    rw [DescribedAt, List.getElem?_append_left (by omega), DescribedAt]
  constructor
  · intro hopens
    refine ⟨hopens.named, fun latest hget start hstart => ?_⟩
    exact hopens.left latest (hlatest ▸ hget) start ((hdescribed latest hget start).2 hstart)
  · intro hopens
    refine ⟨hopens.named, fun latest hget start hstart => ?_⟩
    rw [hlatest] at hget
    exact hopens.left latest hget start ((hdescribed latest hget start).1 hstart)

/-- The lines that define the records are those that open one. -/
theorem opens_iff (h : Accounts ls records column) {i : Nat} {line : List Char}
    (hi : ls[i]? = some line) :
    (∃ record ∈ records, record.lineNumber = i + 1) ↔ OpensRecord ls records (i + 1) line := by
  induction h with
  | @preface ls hnone =>
    have hname := hnone line (List.mem_of_getElem? hi)
    refine iff_of_false (by simp) fun hopens => ?_
    have hnamed := hopens.named
    rw [hname] at hnamed
    cases hnamed
  | @block before further earlier column column' first description uses hbefore hopens hdefines
      hfurther ih =>
    have hblock := Accounts.block hbefore hopens hdefines hfurther
    have hearlier : ∀ record ∈ earlier, record.lineNumber < before.length + 1 :=
      fun record hrecord => Nat.lt_succ_of_le (hbefore.number_bounds record hrecord).2
    rcases Nat.lt_trichotomy i before.length with hlt | rfl | hgt
    · -- A line of an earlier block.
      rw [List.getElem?_append_left hlt] at hi
      have hnew : ∀ record ∈ [recordOf (before.length + 1) first uses description further],
          i + 1 ≤ record.lineNumber := by
        simp only [List.mem_singleton, forall_eq, recordOf]
        omega
      rw [hbefore.opensRecord_append _ hnew, ← ih hi]
      constructor
      · rintro ⟨record, hrecord, hnumber⟩
        rcases List.mem_append.1 hrecord with hrecord | hrecord
        · exact ⟨record, hrecord, hnumber⟩
        · obtain rfl := List.mem_singleton.1 hrecord
          simp only [recordOf] at hnumber
          omega
      · rintro ⟨record, hrecord, hnumber⟩
        exact ⟨record, List.mem_append_left _ hrecord, hnumber⟩
    · -- The line that defines the new record.
      obtain rfl : first = line := by simpa using hi
      have hnew : ∀ record ∈ [recordOf (before.length + 1) first uses description further],
          before.length + 1 ≤ record.lineNumber := by
        simp [recordOf]
      refine iff_of_true ⟨_, List.mem_append_right _ List.mem_cons_self, rfl⟩ ?_
      rw [hbefore.opensRecord_append _ hnew, hbefore.opensRecord_iff hearlier]
      exact hopens
    · -- A further line of the new record.
      have hnumbers : ∀ record ∈ earlier ++
          [recordOf (before.length + 1) first uses description further],
            record.lineNumber < i + 1 := by
        intro record hrecord
        rcases List.mem_append.1 hrecord with hrecord | hrecord
        · have hlt := hearlier record hrecord
          omega
        · obtain rfl := List.mem_singleton.1 hrecord
          simp only [recordOf]
          omega
      have hmem : line ∈ further := by
        obtain ⟨j, rfl⟩ : ∃ j, i = before.length + (j + 1) := ⟨i - before.length - 1, by omega⟩
        rw [List.getElem?_append_right (by omega), Nat.add_sub_cancel_left,
          List.getElem?_cons_succ] at hi
        exact List.mem_of_getElem? hi
      rw [hblock.opensRecord_iff hnumbers]
      refine iff_of_false ?_ (hfurther line hmem)
      rintro ⟨record, hrecord, hnumber⟩
      have hlt := hnumbers record hrecord
      omega

end Accounts

/-! ## The lines before the first record -/

/-- The record of a section that stands some lines further down. -/
def moved (count : Nat) (record : OptionRecord) : OptionRecord :=
  { record with lineNumber := record.lineNumber + count }

namespace Reading

/-- The reading of a section that stands some lines further down. -/
def moved (count : Nat) (r : Reading) : Reading :=
  { r with records := r.records.map (OptionRecord.moved count) }

variable (count : Nat)

theorem addFragment_moved (r : Reading) (fragment : List Char) :
    (r.moved count).addFragment fragment = (r.addFragment fragment).moved count := by
  obtain ⟨records, column⟩ := r
  cases records <;> rfl

theorem addRecord_moved (r : Reading) (line : SourceLine) (level : Nat) (heading : Heading) :
    (r.moved count).addRecord (line.moved count) level heading =
      (r.addRecord line level heading).moved count :=
  rfl

theorem readLine_moved (r : Reading) (line : SourceLine) :
    (r.moved count).readLine (line.moved count) =
      relocated count (moved count) (r.readLine line) := by
  have hwraps : ∀ level, (r.moved count).wraps level = r.wraps level := fun _ => rfl
  simp only [readLine, hwraps]
  rw [show (line.moved count).text = line.text from rfl]
  split
  · rw [addFragment_moved]
    rfl
  · cases readHeading (indent line.text).rest with
    | error tail => rfl
    | ok heading =>
      simp only
      split
      · rw [addFragment_moved]
        rfl
      · rw [addRecord_moved]
        rfl

theorem foldlM_moved (number : Nat) (ls : List (List Char)) (r : Reading) :
    (SourceLine.numbered (number + count) ls).foldlM readLine (r.moved count) =
      relocated count (moved count) ((SourceLine.numbered number ls).foldlM readLine r) := by
  rw [SourceLine.numbered_moved]
  induction ls generalizing r number with
  | nil => rfl
  | cons line ls ih =>
    rw [SourceLine.numbered, List.map_cons, List.foldlM_cons, List.foldlM_cons, readLine_moved]
    exact relocated_bind count (ih (number + 1)) _

end Reading

theorem accounts_of_foldlM {ls : List (List Char)} {r : Reading}
    (h : (SourceLine.numbered 1 ls).foldlM Reading.readLine .start = .ok r) :
    Accounts ls r.records.reverse r.column := by
  have hstart : Accounts [] Reading.start.records.reverse Reading.start.column :=
    .preface (by simp)
  exact accounts_foldlM hstart h

/-- Nothing is left of lines that no record is defined in. -/
theorem start_of_foldlM {preface later : List (List Char)} {r r' : Reading}
    (hpreface : (SourceLine.numbered 1 preface).foldlM Reading.readLine .start = .ok r)
    (hlater : (SourceLine.numbered (1 + preface.length) later).foldlM Reading.readLine r = .ok r')
    (hbehind : ∀ record ∈ r'.records, preface.length < record.lineNumber) : r = .start := by
  have haccounts := accounts_of_foldlM hpreface
  have hempty : r.records = [] := by
    cases hrecords : r.records with
    | nil => rfl
    | cons latest earlier =>
      have hlatest : latest ∈ r.records := hrecords ▸ List.mem_cons_self
      obtain ⟨added, hnumbers, -⟩ := Reading.numbers_of_foldlM hlater
      have hmem : latest.lineNumber ∈ r'.numbers := by
        rw [hnumbers]
        exact List.mem_append_right added (List.mem_map_of_mem hlatest)
      obtain ⟨record, hrecord, hnumber⟩ := List.mem_map.1 hmem
      have hbounds := haccounts.number_bounds latest (List.mem_reverse.2 hlatest)
      have hlt := hbehind record hrecord
      omega
  have hcolumn : r.column = none := haccounts.column_eq.2 (by rw [hempty]; rfl)
  obtain ⟨records, column⟩ := r
  obtain rfl : records = [] := hempty
  obtain rfl : column = none := hcolumn
  rfl

/-- The records of a section are those of its lines without the ones before the first
record. -/
theorem ofLines_of_preface {preface later : List (List Char)} {records : List OptionRecord}
    (h : ofLines (preface ++ later) = .ok records)
    (hbehind : ∀ record ∈ records, preface.length < record.lineNumber) :
    ∃ records', ofLines later = .ok records' ∧ records = records'.map (moved preface.length) := by
  obtain ⟨r, hfold, rfl⟩ := exists_reading h
  rw [SourceLine.numbered_append, List.foldlM_append] at hfold
  obtain ⟨next, hpreface, hlater⟩ := exists_of_bind hfold
  obtain rfl := start_of_foldlM hpreface hlater fun record hrecord =>
    hbehind record (List.mem_reverse.2 hrecord)
  have hmoved := Reading.foldlM_moved preface.length 1 later .start
  have hrun : relocated preface.length (Reading.moved preface.length)
      ((SourceLine.numbered 1 later).foldlM Reading.readLine .start) = .ok r :=
    hmoved.symm.trans hlater
  cases hread : (SourceLine.numbered 1 later).foldlM Reading.readLine .start with
  | error failure =>
    rw [hread] at hrun
    cases hrun
  | ok r' =>
    rw [hread] at hrun
    obtain rfl := Except.ok.inj hrun
    refine ⟨r'.records.reverse, ?_, List.map_reverse.symm⟩
    rw [ofLines, SourceLine.ofLines_eq_numbered, hread]
    rfl

/-! ## The account of a section -/

/-- The records account for the lines of a section.

* Each record has the lines from the one that defines it up to the next record, one fragment
  for each (`count`, `block`).
* The lines that define them are those that open a record (`opens`).
* No record has anything of the lines before the first (`preface`). -/
structure Accounted (ls : List (List Char)) (records : List OptionRecord) : Prop where
  increasing : records.Pairwise (·.lineNumber < ·.lineNumber)
  count : ∀ k record, records[k]? = some record →
    record.lineNumber + record.fragments.length =
      (records[k + 1]?.map (·.lineNumber)).getD (ls.length + 1)
  block : ∀ record ∈ records, HasBlock ls record
  named : ∀ record ∈ records, record.names ≠ []
  opens : ∀ i line, ls[i]? = some line →
    ((∃ record ∈ records, record.lineNumber = i + 1) ↔ OpensRecord ls records (i + 1) line)
  preface : ∀ preface later, ls = preface ++ later →
    (∀ record ∈ records, preface.length < record.lineNumber) →
      ∃ records', ofLines later = .ok records' ∧ records = records'.map (moved preface.length)

theorem HasBlock.names_ne_nil {ls : List (List Char)} {record : OptionRecord}
    (h : HasBlock ls record) : record.names ≠ [] := by
  have huses : ∀ {line description : List Char} {uses : List OptionUse} {column : Option Nat},
      Defines line uses column description → uses ≠ [] := by
    intro line description uses column hdefines
    cases hdefines with
    | described huses _ _ => exact huses.ne_nil
    | plain huses _ => exact huses.ne_nil
  obtain ⟨-, hdefines⟩ := h
  simpa [recordOf] using huses hdefines

/-- The records of a section that is read account for its lines. -/
theorem parse_accounts {text : String} {records : List OptionRecord}
    (h : parse text = .ok records) : Accounted (Text.lines text.toList) records := by
  have hlines : ofLines (Text.lines text.toList) = .ok records := h
  obtain ⟨r, hfold, hrecords⟩ := exists_reading hlines
  have haccounts := accounts_of_foldlM hfold
  rw [← hrecords] at haccounts
  have hblock : ∀ record ∈ records, HasBlock (Text.lines text.toList) record := by
    have hblock := haccounts.hasBlock []
    rwa [List.append_nil] at hblock
  refine ⟨haccounts.increasing, fun k record hk => haccounts.count hk, hblock,
    fun record hrecord => (hblock record hrecord).names_ne_nil,
    fun i line hi => haccounts.opens_iff hi, fun preface later hsplit hbehind => ?_⟩
  rw [hsplit] at hlines
  exact ofLines_of_preface hlines hbehind

/-- A header, a line that looks like a definition but is aligned with a description, and one
left of it. -/
theorem parse_accounts_for_aligned_dash :
    parse "Options:\n  -n=<x>, --n  Max\n               -1 for all\n\n -q" =
        .ok [⟨["-n", "--n"], some "<x>", 2, ["Max", "-1 for all", ""], 2⟩,
          ⟨["-q"], none, 1, [""], 5⟩] ∧
      Accounted ["Options:".toList, "  -n=<x>, --n  Max".toList,
          "               -1 for all".toList, [], " -q".toList]
        [⟨["-n", "--n"], some "<x>", 2, ["Max", "-1 for all", ""], 2⟩,
          ⟨["-q"], none, 1, [""], 5⟩] := by
  have hread : parse "Options:\n  -n=<x>, --n  Max\n               -1 for all\n\n -q" =
      .ok [⟨["-n", "--n"], some "<x>", 2, ["Max", "-1 for all", ""], 2⟩,
        ⟨["-q"], none, 1, [""], 5⟩] := by
    with_unfolding_all rfl
  exact ⟨hread, parse_accounts hread⟩

end OptionRecord

end Synopsis
