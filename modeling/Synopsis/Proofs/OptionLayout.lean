import Mathlib.Data.List.Chain
import Synopsis.OptionRecord.Parse
import Synopsis.Proofs.Ends
import Synopsis.Proofs.Headings
import Synopsis.Proofs.Lines

/-!
# Option records written down

An `Entry` is an option record together with the choices of its layout: what separates its
names, behind which of them the value is written, how many spaces set the description off,
and how far the further lines of the description are indented.  `Entry.lines` writes it
down, and `Entry.record` is the record that it stands for.

* `optionUse?_written` and `readHeading_written` read the names back.  All that matters of
  the text behind a written name is that it is `Parted` from it.
* `foldlM_entry` reads the lines of one entry behind any other records.  The column of the
  description is all that is carried over, and it must be right of the next entry.
* `parse_written` is the result for a list of entries.
-/

namespace Synopsis

open Lexeme Text

namespace OptionRecord

/-! ## Entries -/

/-- What joins a value to the name before it. -/
inductive ValueMark
  | equals
  | space

def ValueMark.char : ValueMark → Char
  | equals => '='
  | space => ' '

/-- What separates two names: a comma and any number of spaces, or a single space. -/
inductive NameMark
  | comma (spaces : Nat)
  | space

def NameMark.chars : NameMark → List Char
  | comma spaces => ',' :: List.replicate spaces ' '
  | space => [' ']

/-- The text of a value: a placeholder on one line. -/
structure ValueText where
  chars : List Char
  isValue : placeholder? chars = some ⟨chars, []⟩
  oneLine : '\n' ∉ chars

/-- A name, with the mark of the value when the value is written behind it. -/
structure WrittenName where
  name : List Char
  isName : optionName? name = some ⟨name, []⟩
  mark : Option ValueMark

/-- A fragment of a description.  It starts with no layout and ends with no blank. -/
structure Fragment where
  chars : List Char
  oneLine : '\n' ∉ chars
  start : ∀ c ∈ chars.head?, isLayout c = false
  stop : Tight chars

def Fragment.empty : Fragment :=
  ⟨[], by simp, by simp, tight_nil⟩

/-- A further line of a description: a fragment that is indented at least as far as the
description, or an empty line. -/
inductive FurtherLine
  | indented (extra : Nat) (fragment : Fragment)
  | empty

def FurtherLine.fragment : FurtherLine → Fragment
  | indented _ fragment => fragment
  | empty => .empty

def FurtherLine.chars (column : Nat) : FurtherLine → List Char
  | indented extra fragment => List.replicate (column + extra) ' ' ++ fragment.chars
  | empty => []

/-- A record with the layout that it is written in.

* The value is written behind some of the names, or there is none.
* The description starts `gap + 2` spaces behind the last name, with `summary`. -/
structure Entry where
  level : Nat
  value : Option ValueText
  first : WrittenName
  others : List (NameMark × WrittenName)
  marked : (∃ w ∈ first :: others.map Prod.snd, w.mark.isSome = true) ↔ value.isSome = true
  gap : Nat
  summary : Fragment
  summary_ne_nil : summary.chars ≠ []
  further : List FurtherLine

/-- The characters of a name and of the value behind it. -/
def WrittenName.chars (value : Option ValueText) (w : WrittenName) : List Char :=
  match w.mark, value with
  | some mark, some value => w.name ++ mark.char :: value.chars
  | _, _ => w.name

/-- The characters of the names behind the first. -/
def otherChars (value : Option ValueText) (others : List (NameMark × WrittenName)) :
    List Char :=
  others.flatMap fun (mark, w) => mark.chars ++ w.chars value

namespace Entry

/-- What the first line has before the description. -/
def heading (e : Entry) : List Char :=
  List.replicate e.level ' ' ++
    (e.first.chars e.value ++ (otherChars e.value e.others ++ List.replicate (e.gap + 2) ' '))

/-- The column where the description starts. -/
def column (e : Entry) : Nat :=
  byteWidth e.heading

def lines (e : Entry) : List (List Char) :=
  (e.heading ++ e.summary.chars) :: e.further.map (FurtherLine.chars e.column)

/-- The record that an entry stands for when its first line has this number. -/
def record (number : Nat) (e : Entry) : OptionRecord where
  names := (e.first :: e.others.map Prod.snd).map fun w => String.ofList w.name
  value := e.value.map fun value => String.ofList value.chars
  level := e.level
  fragments := (e.summary :: e.further.map FurtherLine.fragment).map fun fragment =>
    String.ofList fragment.chars
  lineNumber := number

end Entry

/-- The records of entries that are written one behind the other. -/
def records : Nat → List Entry → List OptionRecord
  | _, [] => []
  | number, e :: entries => e.record number :: records (number + e.lines.length) entries

/-- The text of entries that are written one behind the other. -/
def written (entries : List Entry) : String :=
  String.ofList (terminated (entries.flatMap Entry.lines))

/-! ## Runs of spaces -/

theorem run_replicate {p : Char → Bool} {c : Char} (hc : p c = true) (n : Nat)
    {rest : List Char} (hrest : ∀ d ∈ rest.head?, p d = false) :
    Cut.run p (List.replicate n c ++ rest) = ⟨List.replicate n c, rest⟩ := by
  have hrun : ∀ d ∈ List.replicate n c, p d = true := fun d hd => by
    rwa [List.eq_of_mem_replicate hd]
  obtain ⟨htaken, hdropped⟩ := span_append hrun hrest
  rw [Cut.run, htaken, hdropped]

theorem byteWidth_replicate_space (n : Nat) : byteWidth (List.replicate n ' ') = n := by
  have hascii : ∀ c ∈ List.replicate n ' ', c.toNat < 128 := by
    intro c hc
    rw [List.eq_of_mem_replicate hc]
    decide
  rw [byteWidth_of_ascii hascii, List.length_replicate]

/-! ## Names read back -/

/-- What can stand behind a written name: a comma, a space and another name, or the
spaces before the description. -/
inductive Parted : List Char → Prop
  | comma (s : List Char) : Parted (',' :: s)
  | name (s : List Char) : Parted (' ' :: '-' :: s)
  | gap (s : List Char) : Parted (' ' :: ' ' :: s)

namespace Parted

variable {R : List Char}

theorem name_stops (h : Parted R) : ∀ c ∈ R.head?, isOptionChar c = false := by
  intro c hc
  cases h <;>
  · obtain rfl := Option.some.inj hc
    decide

theorem value_stops (h : Parted R) : EndAlike [] R := by
  intro last hlast
  have hword : isWordChar last = true := by
    by_cases hword : isWordChar last = true
    · exact hword
    · simp [capitalTail?, hword] at hlast
  cases h <;>
  · rw [capitalTail?_cons]
    simp [hword, show isCapitalPart ',' = false by decide,
      show isCapitalPart ' ' = false by decide, show isWordChar ',' = false by decide,
      show isWordChar ' ' = false by decide]

/-- No value can be taken from what stands behind a name. -/
theorem no_value (h : Parted R) : placeholder? (valueJoint R).rest = none := by
  cases h with
  | comma s => rfl
  | name s => rfl
  | gap s => rfl

end Parted

/-- The value that a name is written with. -/
def WrittenName.value (value : Option ValueText) (w : WrittenName) : Option (List Char) :=
  if w.mark.isSome then value.map ValueText.chars else none

theorem valueJoint_mark (mark : ValueMark) (s : List Char) :
    valueJoint (mark.char :: s) = ⟨[mark.char], s⟩ := by
  cases mark <;> rfl

theorem optionUse?_plain {name R : List Char} (hname : optionName? name = some ⟨name, []⟩)
    (hR : Parted R) : optionUse? (name ++ R) = some ⟨name, [], none, R⟩ := by
  have hread : optionName? (name ++ R) = some ⟨name, R⟩ :=
    optionName?_append hname fun _ => hR.name_stops
  rw [optionUse?, hread]
  simp [hR.no_value]

/-- A written name is read as it is written. -/
theorem optionUse?_written (value : Option ValueText) (w : WrittenName) {R : List Char}
    (hR : Parted R) :
    ∃ joint, optionUse? (w.chars value ++ R) = some ⟨w.name, joint, w.value value, R⟩ := by
  obtain ⟨name, hname, mark⟩ := w
  cases mark with
  | none => exact ⟨[], optionUse?_plain hname hR⟩
  | some mark =>
    cases value with
    | none => exact ⟨[], optionUse?_plain hname hR⟩
    | some value =>
      have hmark : isOptionChar mark.char = false := by cases mark <;> decide
      have hread : optionName? (name ++ mark.char :: (value.chars ++ R)) =
          some ⟨name, mark.char :: (value.chars ++ R)⟩ :=
        optionName?_append hname fun _ => by simpa using hmark
      have hvalue : placeholder? (value.chars ++ R) = some ⟨value.chars, R⟩ :=
        placeholder?_append value.isValue hR.value_stops
      refine ⟨[mark.char], ?_⟩
      show optionUse? (name ++ mark.char :: value.chars ++ R) = _
      rw [List.append_assoc, List.cons_append, optionUse?, hread]
      simp [valueJoint_mark, hvalue, WrittenName.value]

theorem exists_dash_of_written (value : Option ValueText) (w : WrittenName) :
    ∃ s, w.chars value = '-' :: s := by
  obtain ⟨name, hname, mark⟩ := w
  obtain ⟨s, rfl⟩ := exists_dash_of_optionName? hname
  cases mark with
  | none => exact ⟨s, rfl⟩
  | some mark =>
    cases value with
    | none => exact ⟨s, rfl⟩
    | some value => exact ⟨_, rfl⟩

/-! ## Headings read back -/

/-- What separates two names is read as it is written. -/
theorem NameMark.read (mark : NameMark) (s : List Char) :
    Parted (mark.chars ++ '-' :: s) ∧
      descriptionSeparator? (mark.chars ++ '-' :: s) = none ∧
      lineEnd? (mark.chars ++ '-' :: s) = none ∧
      nameSeparator? (mark.chars ++ '-' :: s) = some ⟨mark.chars, '-' :: s⟩ := by
  have hend : lineEnd? (mark.chars ++ '-' :: s) = none := by
    have hdash : isLayout '-' = false := by decide
    simp [lineEnd?, hdash]
  cases mark with
  | comma spaces =>
    have hrun : Cut.run (· == ' ') (List.replicate spaces ' ' ++ '-' :: s) =
        ⟨List.replicate spaces ' ', '-' :: s⟩ :=
      run_replicate rfl spaces (by simp)
    refine ⟨.comma _, rfl, hend, ?_⟩
    show some ((Cut.run (· == ' ') (List.replicate spaces ' ' ++ '-' :: s)).after [',']) = _
    rw [hrun]
    rfl
  | space => exact ⟨.name s, rfl, hend, rfl⟩

/-- The value that a list of names is written with. -/
def statedValue (value : Option ValueText) (ws : List WrittenName) : Option (List Char) :=
  if ws.any (·.mark.isSome) then value.map ValueText.chars else none

theorem statedValue_cons (value : Option ValueText) (w : WrittenName)
    (ws : List WrittenName) :
    statedValue value (w :: ws) = (statedValue value ws).or (w.value value) := by
  unfold statedValue WrittenName.value
  cases hw : w.mark.isSome <;> cases hws : ws.any (·.mark.isSome) <;> cases value <;>
    simp [hw, hws]

/-- The names of a line are read back up to the spaces before the description. -/
theorem readHeading_written (value : Option ValueText) (gap : Nat) {description : List Char}
    (hdescription : ∀ c ∈ description.head?, isLayout c = false)
    (others : List (NameMark × WrittenName)) (first : WrittenName) :
    readHeading (first.chars value ++
        (otherChars value others ++ (List.replicate (gap + 2) ' ' ++ description))) =
      .ok ⟨(first :: others.map Prod.snd).map (·.name),
        statedValue value (first :: others.map Prod.snd), true, description⟩ := by
  induction others generalizing first with
  | nil =>
    obtain ⟨joint, huse⟩ := optionUse?_written value first
      (.gap (List.replicate gap ' ' ++ description))
    have hrun : Cut.run (· == ' ') (List.replicate gap ' ' ++ description) =
        ⟨List.replicate gap ' ', description⟩ := by
      refine run_replicate rfl gap fun c hc => ?_
      have hlayout := hdescription c hc
      simp only [isLayout, Bool.or_eq_false_iff] at hlayout
      exact hlayout.1
    have hgap : descriptionSeparator? (' ' :: ' ' :: (List.replicate gap ' ' ++ description)) =
        some ⟨' ' :: ' ' :: List.replicate gap ' ', description⟩ := by
      rw [descriptionSeparator?, hrun]
      rfl
    have hread := readHeading_of_gap huse hgap
    simpa [otherChars, List.replicate_succ, statedValue, WrittenName.value] using hread
  | cons other others ih =>
    obtain ⟨mark, w⟩ := other
    obtain ⟨s, hs⟩ := exists_dash_of_written value w
    have hmark := mark.read (s ++
      (otherChars value others ++ (List.replicate (gap + 2) ' ' ++ description)))
    rw [← List.cons_append, ← hs] at hmark
    obtain ⟨hparted, hgap, hend, hseparator⟩ := hmark
    obtain ⟨joint, huse⟩ := optionUse?_written value first hparted
    have hread := readHeading_of_separator huse hgap hend hseparator
    rw [ih w] at hread
    have hchars : otherChars value ((mark, w) :: others) =
        mark.chars ++ (w.chars value ++ otherChars value others) := by
      simp [otherChars]
    rw [hchars, List.append_assoc, List.append_assoc, hread]
    simp [Except.map, Heading.cons, statedValue_cons]

/-! ## Entries read back -/

namespace Entry

variable (e : Entry)

theorem statedValue_eq :
    statedValue e.value (e.first :: e.others.map Prod.snd) = e.value.map ValueText.chars := by
  unfold statedValue
  have hmarked := e.marked
  cases hvalue : e.value with
  | none => exact ite_self none
  | some value =>
    rw [hvalue] at hmarked
    have hany := List.any_eq_true.2 (hmarked.2 rfl)
    rw [if_pos hany]

theorem column_pos : 0 < e.column := by
  obtain ⟨s, hs⟩ := exists_dash_of_written e.value e.first
  have hdash : 0 < ('-' : Char).utf8Size := Char.utf8Size_pos _
  rw [column, heading, hs, byteWidth_append, byteWidth_append, byteWidth]
  omega

end Entry

theorem indent_replicate (n : Nat) {s : List Char} (hs : ∀ c ∈ s.head?, isLayout c = false) :
    indent (List.replicate n ' ' ++ s) = ⟨List.replicate n ' ', s⟩ :=
  run_replicate rfl n hs

/-- A reading whose latest record is `latest`. -/
def Reading.behind (latest : OptionRecord) (earlier : List OptionRecord) (column : Nat) :
    Reading :=
  ⟨latest :: earlier, some column⟩

theorem addFragment_behind (latest : OptionRecord) (earlier : List OptionRecord)
    (column : Nat) (fragment : Fragment) :
    (Reading.behind latest earlier column).addFragment fragment.chars =
      Reading.behind { latest with
        fragments := latest.fragments ++ [String.ofList fragment.chars] } earlier column := by
  simp [Reading.addFragment, Reading.behind, fragment.stop.trimEnd_eq]

/-- A further line adds its fragment to the latest record. -/
theorem readLine_further (latest : OptionRecord) (earlier : List OptionRecord)
    {column : Nat} (hcolumn : 0 < column) (line : FurtherLine) (number : Nat) :
    (Reading.behind latest earlier column).readLine ⟨line.chars column, number⟩ =
      .ok (Reading.behind { latest with
        fragments := latest.fragments ++ [String.ofList line.fragment.chars] }
          earlier column) := by
  cases line with
  | indented extra fragment =>
    have hindent := indent_replicate (column + extra) fragment.start
    have hwraps : (Reading.behind latest earlier column).wraps (column + extra) = true := by
      simp [Reading.wraps, Reading.behind]
    simp only [Reading.readLine, FurtherLine.chars, hindent, byteWidth_replicate_space,
      hwraps, if_true, addFragment_behind, FurtherLine.fragment]
  | empty =>
    have hwraps : (Reading.behind latest earlier column).wraps 0 = false := by
      simp only [Reading.wraps, Reading.behind, Option.any_some, decide_eq_false_iff_not]
      omega
    have hheading : readHeading [] = .ok ⟨[], none, false, []⟩ := readHeading_of_none rfl
    have hfragment := addFragment_behind latest earlier column .empty
    have hindent : indent [] = ⟨[], []⟩ := rfl
    simp only [Reading.readLine, FurtherLine.chars, hindent, byteWidth, hwraps,
      Bool.false_eq_true, if_false, hheading, List.isEmpty_nil, if_true]
    exact congrArg Except.ok hfragment

theorem foldlM_further (latest : OptionRecord) (earlier : List OptionRecord) {column : Nat}
    (hcolumn : 0 < column) (further : List FurtherLine) (number : Nat) :
    (SourceLine.numbered number (further.map (FurtherLine.chars column))).foldlM
        Reading.readLine (Reading.behind latest earlier column) =
      .ok (Reading.behind { latest with
        fragments := latest.fragments ++
          further.map fun line => String.ofList line.fragment.chars } earlier column) := by
  induction further generalizing latest number with
  | nil => simp [SourceLine.numbered, pure, Except.pure]
  | cons line further ih =>
    rw [List.map_cons, SourceLine.numbered, List.foldlM_cons,
      readLine_further latest earlier hcolumn]
    show (SourceLine.numbered (number + 1) _).foldlM Reading.readLine _ = _
    rw [ih]
    simp

/-- The first line of an entry opens its record, unless it belongs to the description
before it. -/
theorem readLine_first (e : Entry) {r : Reading} (hwraps : r.wraps e.level = false)
    (number : Nat) :
    r.readLine ⟨e.heading ++ e.summary.chars, number⟩ =
      .ok (Reading.behind { e.record number with
        fragments := [String.ofList e.summary.chars] } r.records e.column) := by
  obtain ⟨s, hs⟩ := exists_dash_of_written e.value e.first
  have hindent : indent (e.heading ++ e.summary.chars) =
      ⟨List.replicate e.level ' ', e.first.chars e.value ++ (otherChars e.value e.others ++
        (List.replicate (e.gap + 2) ' ' ++ e.summary.chars))⟩ := by
    have hdash : isLayout '-' = false := by decide
    have hindent := indent_replicate e.level (s := e.first.chars e.value ++
      (otherChars e.value e.others ++ (List.replicate (e.gap + 2) ' ' ++ e.summary.chars)))
      (by simp [hs, hdash])
    simpa [Entry.heading] using hindent
  have hheading := readHeading_written e.value e.gap e.summary.start e.others e.first
  rw [e.statedValue_eq] at hheading
  have hcolumn : byteWidth (e.heading ++ e.summary.chars) - byteWidth e.summary.chars =
      e.column := by
    rw [byteWidth_append, Nat.add_sub_cancel, Entry.column]
  simp only [Reading.readLine, hindent, byteWidth_replicate_space, hwraps,
    Bool.false_eq_true, if_false, hheading]
  simp [Reading.addRecord, Reading.addFragment, Reading.behind, Entry.record, hcolumn,
    e.summary.stop.trimEnd_eq, Function.comp_def]

/-- The lines of an entry add its record, behind any records before it. -/
theorem foldlM_entry (e : Entry) {r : Reading} (hwraps : r.wraps e.level = false)
    (number : Nat) :
    (SourceLine.numbered number e.lines).foldlM Reading.readLine r =
      .ok (Reading.behind (e.record number) r.records e.column) := by
  rw [Entry.lines, SourceLine.numbered, List.foldlM_cons, readLine_first e hwraps]
  show (SourceLine.numbered (number + 1) _).foldlM Reading.readLine _ = _
  rw [foldlM_further _ _ e.column_pos]
  simp [Entry.record, Function.comp_def]

/-- Entries add their records in turn when each starts left of the description before
it. -/
theorem foldlM_entries (entries : List Entry) {r : Reading}
    (hfirst : ∀ e ∈ entries.head?, r.wraps e.level = false)
    (hlevels : entries.IsChain fun e next => next.level < e.column) (number : Nat) :
    ∃ column, (SourceLine.numbered number (entries.flatMap Entry.lines)).foldlM
        Reading.readLine r =
      .ok ⟨(records number entries).reverse ++ r.records, column⟩ := by
  induction entries generalizing r number with
  | nil => exact ⟨r.column, rfl⟩
  | cons e entries ih =>
    have hread := foldlM_entry e (hfirst e rfl) number
    have hnext : ∀ next ∈ entries.head?,
        (Reading.behind (e.record number) r.records e.column).wraps next.level = false := by
      intro next hnext
      have hlt := hlevels.rel_head? hnext
      simp only [Reading.wraps, Reading.behind, Option.any_some, decide_eq_false_iff_not]
      omega
    obtain ⟨column, hlater⟩ := ih hnext hlevels.tail (number + e.lines.length)
    refine ⟨column, ?_⟩
    rw [List.flatMap_cons, SourceLine.numbered_append, List.foldlM_append, hread]
    show (SourceLine.numbered _ _).foldlM Reading.readLine _ = _
    rw [hlater, records]
    simp [Reading.behind]

/-! ## The text read back -/

theorem newline_not_mem_of_optionName? {s : List Char} {cut : Cut}
    (h : optionName? s = some cut) : '\n' ∉ cut.taken := by
  intro hmem
  have hblank : isBlank '\n' = true := by decide
  rw [not_isBlank_of_optionName? h _ hmem] at hblank
  cases hblank

theorem newline_not_mem_written (value : Option ValueText) (w : WrittenName) :
    '\n' ∉ w.chars value := by
  obtain ⟨name, hname, mark⟩ := w
  have hnewline : '\n' ∉ name := newline_not_mem_of_optionName? hname
  cases mark with
  | none => exact hnewline
  | some mark =>
    cases value with
    | none => exact hnewline
    | some value =>
      have hmark : '\n' ≠ mark.char := by cases mark <;> decide
      simp [WrittenName.chars, hnewline, hmark, value.oneLine]

theorem newline_not_mem_otherChars (value : Option ValueText)
    (others : List (NameMark × WrittenName)) : '\n' ∉ otherChars value others := by
  intro hmem
  obtain ⟨⟨mark, w⟩, _, hmem⟩ := List.mem_flatMap.1 hmem
  rcases List.mem_append.1 hmem with hmark | hname
  · cases mark <;> simp [NameMark.chars] at hmark
  · exact newline_not_mem_written value w hname

theorem Fragment.isLine (fragment : Fragment) : IsLine fragment.chars := by
  refine ⟨fragment.oneLine, fun hlast => ?_⟩
  have hblank : isBlank '\r' = true := by decide
  rw [fragment.stop _ hlast] at hblank
  cases hblank

theorem FurtherLine.isLine (column : Nat) (line : FurtherLine) :
    IsLine (line.chars column) := by
  cases line with
  | empty => exact isLine_nil
  | indented extra fragment =>
    have hspaces : '\n' ∉ List.replicate (column + extra) ' ' := by simp
    by_cases hempty : fragment.chars = []
    · refine ⟨by simp [chars, hempty], fun hlast => ?_⟩
      have hmem := List.mem_of_getLast? hlast
      simp [chars, hempty] at hmem
    · exact isLine_append hspaces fragment.isLine hempty

theorem Entry.isLine (e : Entry) : ∀ line ∈ e.lines, IsLine line := by
  intro line hline
  rcases List.mem_cons.1 hline with rfl | hline
  · have hheading : '\n' ∉ e.heading := by
      simp [heading, newline_not_mem_written, newline_not_mem_otherChars]
    exact isLine_append hheading e.summary.isLine e.summary_ne_nil
  · obtain ⟨further, _, rfl⟩ := List.mem_map.1 hline
    exact further.isLine e.column

/-- The text of entries is read back into their records, with the numbers of their first
lines, when each entry starts left of the column where the description before it starts. -/
theorem parse_written (entries : List Entry)
    (hlevels : entries.IsChain fun e next => next.level < e.column) :
    parse (written entries) = .ok (records 1 entries) := by
  have hlines : lines (written entries).toList = entries.flatMap Entry.lines := by
    rw [written, String.toList_ofList]
    refine lines_terminated fun line hline => ?_
    obtain ⟨e, _, hline⟩ := List.mem_flatMap.1 hline
    exact e.isLine line hline
  have hstart : ∀ e ∈ entries.head?, Reading.start.wraps e.level = false := by
    intro e _
    rfl
  obtain ⟨column, hread⟩ := foldlM_entries entries hstart hlevels 1
  rw [parse, ofLines, hlines, SourceLine.ofLines_eq_numbered, hread]
  simp [Except.map, Reading.start]

/-- An option whose value stands behind its second name, with a description of three lines,
and one without a value. -/
def limitAndQuiet : List Entry :=
  [{ level := 2
     value := some ⟨"<n>".toList, by decide, by decide⟩
     first := ⟨"-n".toList, by decide, none⟩
     others := [(.comma 1, ⟨"--limit".toList, by decide, some .equals⟩)]
     marked := by decide
     gap := 0
     summary := ⟨"Max items,".toList, by decide, by simp [isLayout], by decide⟩
     summary_ne_nil := by decide
     further := [.indented 0 ⟨"--all for any.".toList, by decide, by simp [isLayout], by decide⟩,
       .empty] },
   { level := 0
     value := none
     first := ⟨"-q".toList, by decide, none⟩
     others := []
     marked := by decide
     gap := 0
     summary := ⟨"Quiet.".toList, by decide, by simp [isLayout], by decide⟩
     summary_ne_nil := by decide
     further := [] }]

theorem parse_limitAndQuiet :
    parse "  -n, --limit=<n>  Max items,\n                   --all for any.\n\n-q  Quiet.\n" =
      .ok [⟨["-n", "--limit"], some "<n>", 2, ["Max items,", "--all for any.", ""], 1⟩,
        ⟨["-q"], none, 0, ["Quiet."], 4⟩] := by
  have hlevels : limitAndQuiet.IsChain fun e next => next.level < e.column :=
    .cons_cons (by decide) (.singleton _)
  exact parse_written limitAndQuiet hlevels

end OptionRecord

end Synopsis
