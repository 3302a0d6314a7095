import Mathlib.Data.List.TakeWhile
import Synopsis.Proofs.Accounts

/-!
# Lines aligned with a description

A description may go on in the lines below it, aligned with its start.  The column that is kept
for it counts bytes, and aligned lines have a space for each character.  The two are the same
where the text before the description is ASCII.  Where it is not, the column lies further to
the right than the description does, and an aligned line that starts with a name can open a
record of its own.

* `alignedRun` are the lines below a record that have as many spaces in front as there are
  characters before the description, and `ReadAsProse` says that they are part of it.
* Whether they are is decided line by line.  As long as no line has opened a record, the latest
  one is that of the description (`latestBefore_eq`), so its column decides on the next line.

`aligned_lines_are_prose_iff` is the result, and `aligned_dash_opens_record` a line that is not
prose.
-/

namespace Synopsis

open Lexeme Text

namespace OptionRecord

/-! ## The lines below a record -/

/-- The line has at least so many spaces in front. -/
def startsWithSpaces (width : Nat) (line : List Char) : Bool :=
  (List.replicate width ' ').isPrefixOf line

/-- The lines right below the one that defines the record, as far as they have at least so many
spaces in front. -/
def alignedRun (ls : List (List Char)) (record : OptionRecord) (width : Nat) :
    List (List Char) :=
  (ls.drop record.lineNumber).takeWhile (startsWithSpaces width)

/-- The lines of the run are fragments of the description, and none of them opens a record. -/
structure ReadAsProse (ls : List (List Char)) (records : List OptionRecord)
    (record : OptionRecord) (width : Nat) : Prop where
  appended : ∀ i line, (alignedRun ls record width)[i]? = some line →
    record.fragments[i + 1]? = some (fragment (indent line).rest)
  unopened : ∀ i line, (alignedRun ls record width)[i]? = some line →
    ∀ other ∈ records, other.lineNumber ≠ record.lineNumber + (i + 1)

theorem width_le_indent {width : Nat} {line : List Char}
    (h : startsWithSpaces width line = true) : width ≤ (indent line).taken.length := by
  obtain ⟨rest, rfl⟩ := List.isPrefixOf_iff_prefix.1 h
  have hspaces : ∀ c ∈ List.replicate width ' ', isLayout c = true := by
    intro c hc
    rw [List.eq_of_mem_replicate hc]
    rfl
  rw [indent, Cut.run, List.takeWhile_append_of_pos hspaces, List.length_append,
    List.length_replicate]
  exact Nat.le_add_right width _

section Run

variable {ls : List (List Char)} {record : OptionRecord} {width i : Nat} {line : List Char}

theorem getElem?_of_alignedRun (h : (alignedRun ls record width)[i]? = some line) :
    ls[record.lineNumber + i]? = some line := by
  obtain ⟨more, hmore⟩ : alignedRun ls record width <+: ls.drop record.lineNumber :=
    List.takeWhile_prefix _
  obtain ⟨hlt, -⟩ := List.getElem?_eq_some_iff.1 h
  rw [← List.getElem?_drop, ← hmore, List.getElem?_append_left hlt]
  exact h

theorem aligned_of_mem (h : line ∈ alignedRun ls record width) :
    width ≤ (indent line).taken.length :=
  width_le_indent (List.mem_takeWhile_imp h)

end Run

/-! ## What decides on a line -/

section Records

variable {ls : List (List Char)} {records : List OptionRecord} {record : OptionRecord}

/-- A record is the latest one as long as no other record is opened. -/
theorem latestBefore_eq (hincreasing : records.Pairwise (·.lineNumber < ·.lineNumber))
    (hrecord : record ∈ records) {number : Nat} (hbefore : record.lineNumber < number)
    (hnone : ∀ other ∈ records, other.lineNumber < number →
      other.lineNumber ≤ record.lineNumber) : latestBefore records number = some record := by
  obtain ⟨earlier, later, rfl⟩ := List.append_of_mem hrecord
  have hlater : ∀ other ∈ later, record.lineNumber < other.lineNumber :=
    (List.pairwise_cons.1 (List.pairwise_append.1 hincreasing).2.1).1
  have hfilter : later.filter (·.lineNumber < number) = [] := by
    rw [List.filter_eq_nil_iff]
    intro other hother hlt
    have hle := hnone other (List.mem_append_right _ (List.mem_cons_of_mem _ hother))
      (of_decide_eq_true hlt)
    exact absurd (hlater other hother) (Nat.not_lt.2 hle)
  rw [latestBefore, List.filter_append, List.filter_cons_of_pos (by simpa using hbefore), hfilter]
  exact List.getLast?_concat

/-- A line below the record opens a record if it starts with a name left of the description. -/
theorem opensRecord_iff_left {number start : Nat} {line : List Char}
    (hlatest : latestBefore records number = some record)
    (hstart : ∀ column, DescribedAt ls record column ↔ column = start) :
    OpensRecord ls records number line ↔
      (optionName? (indent line).rest).isSome = true ∧ (indent line).taken.length < start := by
  constructor
  · intro h
    exact ⟨h.named, h.left record hlatest start ((hstart start).2 rfl)⟩
  · rintro ⟨hnamed, hleft⟩
    refine ⟨hnamed, fun latest hlatest' column hcolumn => ?_⟩
    obtain rfl := Option.some.inj (hlatest.symm.trans hlatest')
    rwa [(hstart column).1 hcolumn]

theorem HasBlock.fragments_pos (h : HasBlock ls record) : 0 < record.fragments.length := by
  obtain ⟨-, -⟩ := h
  exact Nat.succ_pos _

/-- A line that a record has a fragment for is this fragment. -/
theorem HasBlock.fragment_eq (h : HasBlock ls record) {i : Nat} {line : List Char}
    (hi : i + 1 < record.fragments.length) (hline : ls[record.lineNumber + i]? = some line) :
    record.fragments[i + 1]? = some (fragment (indent line).rest) := by
  obtain @⟨before, further, after, first, description, uses, _, rfl, -⟩ := h
  simp only [recordOf, List.length_cons, List.length_map, Nat.add_lt_add_iff_right] at hi
  have hnumber : (recordOf (before.length + 1) first uses description further).lineNumber + i =
      before.length + (i + 1) := by
    simp only [recordOf]
    omega
  rw [hnumber, List.getElem?_append_right (by omega), Nat.add_sub_cancel_left,
    List.getElem?_cons_succ, List.getElem?_append_left hi] at hline
  simp [recordOf, hline]

end Records

section Account

variable {ls : List (List Char)} {records : List OptionRecord} {record : OptionRecord}
  {width start : Nat}

/-- A line of the run opens a record if it starts with a name left of the description, as long as
no line above it in the run does. -/
theorem Accounted.opens_iff_left (h : Accounted ls records) (hrecord : record ∈ records)
    (hstart : ∀ column, DescribedAt ls record column ↔ column = start) {i : Nat}
    {line : List Char} (hi : (alignedRun ls record width)[i]? = some line)
    (hnone : ∀ j < i, ∀ above, (alignedRun ls record width)[j]? = some above →
      ∀ other ∈ records, other.lineNumber ≠ record.lineNumber + (j + 1)) :
    (∃ other ∈ records, other.lineNumber = record.lineNumber + (i + 1)) ↔
      (optionName? (indent line).rest).isSome = true ∧ (indent line).taken.length < start := by
  obtain ⟨hlt, -⟩ := List.getElem?_eq_some_iff.1 hi
  have hlatest : latestBefore records (record.lineNumber + i + 1) = some record := by
    refine latestBefore_eq h.increasing hrecord (by omega) fun other hother hbefore => ?_
    by_contra hbehind
    obtain ⟨j, hj⟩ : ∃ j, other.lineNumber = record.lineNumber + (j + 1) :=
      ⟨other.lineNumber - record.lineNumber - 1, by omega⟩
    exact hnone j (by omega) _ (List.getElem?_eq_getElem (by omega)) other hother hj
  rw [← opensRecord_iff_left hlatest hstart, ← h.opens _ line (getElem?_of_alignedRun hi),
    Nat.add_assoc]

/-- Lines that open no record are fragments of the record above them. -/
theorem Accounted.readAsProse_of_unopened (h : Accounted ls records) (hrecord : record ∈ records)
    (hnone : ∀ i line, (alignedRun ls record width)[i]? = some line →
      ∀ other ∈ records, other.lineNumber ≠ record.lineNumber + (i + 1)) :
    ReadAsProse ls records record width := by
  refine ⟨fun i line hi => ?_, hnone⟩
  have hline := getElem?_of_alignedRun hi
  have hblock := h.block record hrecord
  refine hblock.fragment_eq ?_ hline
  obtain ⟨k, hk⟩ := List.getElem?_of_mem hrecord
  have hcount := h.count k record hk
  obtain ⟨hlt, -⟩ := List.getElem?_eq_some_iff.1 hi
  by_contra hshort
  cases hnext : records[k + 1]? with
  | none =>
    obtain ⟨hend, -⟩ := List.getElem?_eq_some_iff.1 hline
    rw [hnext, Option.map_none, Option.getD_none] at hcount
    omega
  | some next =>
    -- The next record is defined in one of the lines up to this one.
    rw [hnext, Option.map_some, Option.getD_some] at hcount
    have hpos := hblock.fragments_pos
    have hj : record.fragments.length - 1 < (alignedRun ls record width).length := by omega
    exact hnone _ _ (List.getElem?_eq_getElem hj) next (List.mem_of_getElem? hnext) (by omega)

/-- The lines of the run are prose when those that start with a name are not left of the
description. -/
theorem Accounted.readAsProse_iff (h : Accounted ls records) (width : Nat)
    (hrecord : record ∈ records)
    (hstart : ∀ column, DescribedAt ls record column ↔ column = start) :
    ReadAsProse ls records record width ↔
      ∀ line ∈ alignedRun ls record width, (optionName? (indent line).rest).isSome = true →
        start ≤ (indent line).taken.length := by
  constructor
  · intro hprose line hline hnamed
    obtain ⟨i, hi⟩ := List.getElem?_of_mem hline
    by_contra hleft
    obtain ⟨other, hother, hnumber⟩ :=
      (h.opens_iff_left hrecord hstart hi fun j _ => hprose.unopened j).2
        ⟨hnamed, Nat.not_le.1 hleft⟩
    exact hprose.unopened i line hi other hother hnumber
  · intro hright
    refine h.readAsProse_of_unopened hrecord fun i => ?_
    induction i using Nat.strongRecOn with
    | ind i ih =>
      intro line hi other hother hnumber
      obtain ⟨hnamed, hleft⟩ :=
        (h.opens_iff_left hrecord hstart hi ih).1 ⟨other, hother, hnumber⟩
      exact absurd (hright line (List.mem_of_getElem? hi) hnamed) (Nat.not_le.2 hleft)

end Account

/-! ## Characters and bytes -/

/-- The lines below a record, as far as they have as many spaces in front as there are characters
before its description: they are prose exactly when those that start with a name have as many
spaces and tabs in front as there are bytes before the description.  They always have where the
text before the description is ASCII. -/
theorem aligned_lines_are_prose_iff {text : String} {records : List OptionRecord}
    (h : parse text = .ok records) {record : OptionRecord} (hrecord : record ∈ records)
    {lead description : List Char}
    (hline : (Text.lines text.toList)[record.lineNumber - 1]? = some (lead ++ description))
    {uses : List OptionUse}
    (hdefines : Defines (lead ++ description) uses (some (byteWidth lead)) description) :
    (ReadAsProse (Text.lines text.toList) records record lead.length ↔
      ∀ line ∈ alignedRun (Text.lines text.toList) record lead.length,
        (optionName? (indent line).rest).isSome = true →
          byteWidth lead ≤ (indent line).taken.length) ∧
      ((∀ c ∈ lead, c.toNat < 128) →
        ReadAsProse (Text.lines text.toList) records record lead.length) := by
  have hstart : ∀ column, DescribedAt (Text.lines text.toList) record column ↔
      column = byteWidth lead := by
    intro column
    constructor
    · rintro ⟨line, uses', description', hline', hdefines'⟩
      obtain rfl := Option.some.inj (hline.symm.trans hline')
      exact Option.some.inj (hdefines'.column_unique hdefines)
    · rintro rfl
      exact ⟨_, uses, description, hline, hdefines⟩
  have hiff := (parse_accounts h).readAsProse_iff lead.length hrecord hstart
  refine ⟨hiff, fun hascii => hiff.2 fun line hmem _ => ?_⟩
  rw [byteWidth_of_ascii hascii]
  exact aligned_of_mem hmem

/-- Two lines below a description, the second one with a dash in front, and a line that is one
character further to the left. -/
theorem aligned_lines_are_prose_for_ascii :
    parse "  -n=<x>  Max.\n          Or\n          -1 for all.\n         -q" =
        .ok [⟨["-n"], some "<x>", 2, ["Max.", "Or", "-1 for all."], 1⟩,
          ⟨["-q"], none, 9, [""], 4⟩] ∧
      ReadAsProse ["  -n=<x>  Max.".toList, "          Or".toList, "          -1 for all.".toList,
          "         -q".toList]
        [⟨["-n"], some "<x>", 2, ["Max.", "Or", "-1 for all."], 1⟩, ⟨["-q"], none, 9, [""], 4⟩]
        ⟨["-n"], some "<x>", 2, ["Max.", "Or", "-1 for all."], 1⟩ 10 := by
  have hread : parse "  -n=<x>  Max.\n          Or\n          -1 for all.\n         -q" =
      .ok [⟨["-n"], some "<x>", 2, ["Max.", "Or", "-1 for all."], 1⟩,
        ⟨["-q"], none, 9, [""], 4⟩] := by
    with_unfolding_all rfl
  have hdefines : Defines ("  -n=<x>  ".toList ++ "Max.".toList)
      [⟨"-n".toList, "=".toList, some "<x>".toList, "  Max.".toList⟩]
      (some (byteWidth "  -n=<x>  ".toList)) "Max.".toList := by
    refine .described (.last rfl ?_) (@Trailing.gap _ ⟨"  ".toList, "Max.".toList⟩ rfl) rfl
    intro cut hcut
    obtain rfl := Option.some.inj hcut
    rfl
  have hascii : ∀ c ∈ [' ', ' ', '-', 'n', '=', '<', 'x', '>', ' ', ' '], c.toNat < 128 := by
    simp
  exact ⟨hread, (aligned_lines_are_prose_iff hread List.mem_cons_self rfl hdefines).2 hascii⟩

/-- A line below a description that is not ASCII in front.  The description has 15 characters
before it and the line 15 spaces, and still it opens a record. -/
theorem aligned_dash_opens_record :
    parse "  --größe=<n>  Max.\n               -1 means unlimited." =
        .ok [⟨["--größe"], some "<n>", 2, ["Max."], 1⟩,
          ⟨["-1"], none, 15, ["means unlimited."], 2⟩] ∧
      ("  --größe=<n>  ".toList.length = 15 ∧
        Defines ("  --größe=<n>  ".toList ++ "Max.".toList)
          [⟨"--größe".toList, "=".toList, some "<n>".toList, "  Max.".toList⟩]
          (some (byteWidth "  --größe=<n>  ".toList)) "Max.".toList) ∧
      ¬ ReadAsProse ["  --größe=<n>  Max.".toList, "               -1 means unlimited.".toList]
        [⟨["--größe"], some "<n>", 2, ["Max."], 1⟩,
          ⟨["-1"], none, 15, ["means unlimited."], 2⟩]
        ⟨["--größe"], some "<n>", 2, ["Max."], 1⟩ 15 := by
  refine ⟨by with_unfolding_all rfl, ⟨rfl, ?_⟩, fun hprose => ?_⟩
  · refine .described (.last ?_ ?_) (@Trailing.gap _ ⟨"  ".toList, "Max.".toList⟩ rfl) rfl
    · with_unfolding_all rfl
    · intro cut hcut
      obtain rfl := Option.some.inj hcut
      rfl
  · have hrun : (alignedRun ["  --größe=<n>  Max.".toList,
        "               -1 means unlimited.".toList]
          ⟨["--größe"], some "<n>", 2, ["Max."], 1⟩ 15)[0]? =
        some "               -1 means unlimited.".toList := rfl
    exact hprose.unopened 0 _ hrun ⟨["-1"], none, 15, ["means unlimited."], 2⟩
      (List.mem_cons_of_mem _ List.mem_cons_self) rfl

end OptionRecord

end Synopsis
