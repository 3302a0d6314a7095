import Synopsis.OptionRecord.Parse
import Synopsis.Proofs.Lines
import Synopsis.Proofs.Reading

/-!
# The names at the start of an options line

A line that defines an option starts with a run of names.  The first group of lemmas has one
equation of `readHeading` for each thing that can stand behind a name; everything later cites
them and does not unfold it.

* `Leading` is the run as a relation: its names stand one behind the other, with a separator
  between each two.
* `readHeading_eq_error_iff`: the names cannot be read exactly when one of the run is followed
  by nothing that can follow a name (`CanFollow`).
* `Reading.Step` is what a line does that is read, and `Reading.Opens` whether it opens a
  record.  That is a matter of the description before it, and of a name at its start.
* `parse_eq_error_iff` says of a section when it cannot be read.  Only lines that open a
  record count.

A separator lets any text follow, not only another name.  `lone_separator_is_read` is a
section where this makes a difference.
-/

namespace Synopsis

open Lexeme Text

namespace OptionRecord

/-! ## What stands behind a name -/

section Heading

variable {s : List Char} {use : OptionUse} {cut : Cut}

theorem readHeading_of_none (h : optionUse? s = none) :
    readHeading s = .ok ⟨[], none, false, s⟩ := by
  rw [readHeading]
  split
  · rfl
  · rename_i use huse
    cases h.symm.trans huse

theorem readHeading_of_gap (huse : optionUse? s = some use)
    (hgap : descriptionSeparator? use.rest = some cut) :
    readHeading s = .ok ⟨[use.name], use.value, true, cut.rest⟩ := by
  rw [readHeading]
  split
  · rename_i hnone
    cases hnone.symm.trans huse
  · rename_i use' huse'
    obtain rfl := Option.some.inj (huse'.symm.trans huse)
    simp [hgap]

theorem readHeading_of_end (huse : optionUse? s = some use)
    (hgap : descriptionSeparator? use.rest = none) (hend : lineEnd? use.rest = some cut) :
    readHeading s = .ok ⟨[use.name], use.value, false, cut.rest⟩ := by
  rw [readHeading]
  split
  · rename_i hnone
    cases hnone.symm.trans huse
  · rename_i use' huse'
    obtain rfl := Option.some.inj (huse'.symm.trans huse)
    simp [hgap, hend]

theorem readHeading_of_separator (huse : optionUse? s = some use)
    (hgap : descriptionSeparator? use.rest = none) (hend : lineEnd? use.rest = none)
    (hseparator : nameSeparator? use.rest = some cut) :
    readHeading s = (readHeading cut.rest).map (Heading.cons use) := by
  rw [readHeading]
  split
  · rename_i hnone
    cases hnone.symm.trans huse
  · rename_i use' huse'
    obtain rfl := Option.some.inj (huse'.symm.trans huse)
    simp only [hgap, hend]
    split
    · rename_i cut' hcut'
      obtain rfl := Option.some.inj (hcut'.symm.trans hseparator)
      rfl
    · rename_i hnone
      cases hnone.symm.trans hseparator

theorem readHeading_of_stray (huse : optionUse? s = some use)
    (hgap : descriptionSeparator? use.rest = none) (hend : lineEnd? use.rest = none)
    (hseparator : nameSeparator? use.rest = none) : readHeading s = .error use.rest := by
  rw [readHeading]
  split
  · rename_i hnone
    cases hnone.symm.trans huse
  · rename_i use' huse'
    obtain rfl := Option.some.inj (huse'.symm.trans huse)
    simp only [hgap, hend]
    split
    · rename_i cut' hcut'
      cases hcut'.symm.trans hseparator
    · rfl

end Heading

/-- What can stand behind a name: the gap before a description, the end of the line, or what
separates names. -/
def CanFollow (rest : List Char) : Prop :=
  (descriptionSeparator? rest).isSome = true ∨ (lineEnd? rest).isSome = true ∨
    (nameSeparator? rest).isSome = true

/-- What can stand behind a name if a separator has to have another name behind it. -/
def CanFollowStrictly (rest : List Char) : Prop :=
  (descriptionSeparator? rest).isSome = true ∨ (lineEnd? rest).isSome = true ∨
    ∃ cut, nameSeparator? rest = some cut ∧ (optionName? cut.rest).isSome = true

theorem not_canFollow_iff {rest : List Char} :
    ¬ CanFollow rest ↔ descriptionSeparator? rest = none ∧ lineEnd? rest = none ∧
      nameSeparator? rest = none := by
  simp [CanFollow]

/-! ## The run of names -/

/-- The option use is one of those that the text starts with, one behind the other. -/
inductive Leading : List Char → OptionUse → Prop
  | first {s : List Char} {use : OptionUse} (huse : optionUse? s = some use) : Leading s use
  | behind {s : List Char} {use later : OptionUse} {cut : Cut}
      (huse : optionUse? s = some use) (hseparator : nameSeparator? use.rest = some cut)
      (hlater : Leading cut.rest later) : Leading s later

theorem Leading.exists_use {s : List Char} {use : OptionUse} (h : Leading s use) :
    ∃ first, optionUse? s = some first := by
  cases h with
  | first huse => exact ⟨_, huse⟩
  | behind huse _ _ => exact ⟨_, huse⟩

/-- What a leading name leaves is the end of the text. -/
theorem Leading.rest_suffix {s : List Char} {use : OptionUse} (h : Leading s use) :
    use.rest <:+ s := by
  induction h with
  | first huse => exact ⟨_, (takes_of_optionUse? huse).1⟩
  | behind huse hseparator _ ih =>
    have hrest : _ <:+ _ := ⟨_, (takes_of_nameSeparator? hseparator).1⟩
    exact (ih.trans hrest).trans ⟨_, (takes_of_optionUse? huse).1⟩

/-- A separator before another name is neither a gap nor the end of the line. -/
theorem no_gap_of_separator {rest : List Char} {cut : Cut} {use : OptionUse}
    (hseparator : nameSeparator? rest = some cut) (huse : optionUse? cut.rest = some use) :
    descriptionSeparator? rest = none ∧ lineEnd? rest = none := by
  have hdash : isLayout '-' = false := by decide
  have hcomma : isLayout ',' = false := by decide
  unfold nameSeparator? at hseparator
  split at hseparator
  · exact ⟨rfl, by simp [lineEnd?, hcomma]⟩
  · rename_i s
    obtain rfl := Option.some.inj hseparator
    obtain ⟨name, hname⟩ := Token.exists_dash_of_optionUse? huse
    have hs : s = '-' :: (name ++ (use.joint ++ use.value.getD [] ++ use.rest)) := by
      have htaken : use.taken ++ use.rest = s := (takes_of_optionUse? huse).1
      rw [← htaken, OptionUse.taken, hname]
      simp
    subst hs
    exact ⟨rfl, by simp [lineEnd?, hdash]⟩
  · cases hseparator

/-- The names of a line cannot be read exactly when one of them is followed by nothing that
can follow a name.  Reading stops behind it. -/
theorem readHeading_eq_error_iff {s tail : List Char} :
    readHeading s = .error tail ↔
      ∃ use, Leading s use ∧ ¬ CanFollow use.rest ∧ tail = use.rest := by
  constructor
  · intro h
    generalize hn : s.length = n
    induction n using Nat.strongRecOn generalizing s with
    | ind n ih =>
      subst hn
      cases huse : optionUse? s with
      | none => cases (readHeading_of_none huse).symm.trans h
      | some use =>
        cases hgap : descriptionSeparator? use.rest with
        | some cut => cases (readHeading_of_gap huse hgap).symm.trans h
        | none =>
          cases hend : lineEnd? use.rest with
          | some cut => cases (readHeading_of_end huse hgap hend).symm.trans h
          | none =>
            cases hseparator : nameSeparator? use.rest with
            | none =>
              have hstray := readHeading_of_stray huse hgap hend hseparator
              obtain rfl := Except.error.inj (hstray.symm.trans h)
              exact ⟨use, .first huse, not_canFollow_iff.2 ⟨hgap, hend, hseparator⟩, rfl⟩
            | some cut =>
              rw [readHeading_of_separator huse hgap hend hseparator] at h
              have hlt : cut.rest.length < s.length :=
                Nat.lt_trans (takes_of_nameSeparator? hseparator).rest_length_lt
                  (takes_of_optionUse? huse).rest_length_lt
              obtain ⟨later, hleading, hstray, htail⟩ :=
                ih cut.rest.length hlt (map_eq_error_iff.1 h) rfl
              exact ⟨later, .behind huse hseparator hleading, hstray, htail⟩
  · rintro ⟨use, hleading, hstray, rfl⟩
    induction hleading with
    | first huse =>
      obtain ⟨hgap, hend, hseparator⟩ := not_canFollow_iff.1 hstray
      exact readHeading_of_stray huse hgap hend hseparator
    | behind huse hseparator hlater ih =>
      obtain ⟨next, hnext⟩ := hlater.exists_use
      obtain ⟨hgap, hend⟩ := no_gap_of_separator hseparator hnext
      rw [readHeading_of_separator huse hgap hend hseparator, ih hstray]
      rfl

/-- A line has names exactly when it starts with one. -/
theorem names_eq_nil_iff {s : List Char} {heading : Heading}
    (h : readHeading s = .ok heading) : heading.names = [] ↔ optionName? s = none := by
  rw [← Token.optionUse?_eq_none_iff]
  cases huse : optionUse? s with
  | none =>
    obtain rfl := Except.ok.inj ((readHeading_of_none huse).symm.trans h)
    simp
  | some use =>
    have hnames : heading.names ≠ [] := by
      cases hgap : descriptionSeparator? use.rest with
      | some cut =>
        obtain rfl := Except.ok.inj ((readHeading_of_gap huse hgap).symm.trans h)
        simp
      | none =>
        cases hend : lineEnd? use.rest with
        | some cut =>
          obtain rfl := Except.ok.inj ((readHeading_of_end huse hgap hend).symm.trans h)
          simp
        | none =>
          cases hseparator : nameSeparator? use.rest with
          | none => cases (readHeading_of_stray huse hgap hend hseparator).symm.trans h
          | some cut =>
            rw [readHeading_of_separator huse hgap hend hseparator] at h
            cases hlater : readHeading cut.rest with
            | error tail =>
              rw [hlater] at h
              cases h
            | ok later =>
              rw [hlater] at h
              obtain rfl := Except.ok.inj h
              simp [Heading.cons]
    simp [hnames]

theorem Leading.named {s : List Char} {use : OptionUse} (h : Leading s use) :
    (optionName? s).isSome = true := by
  obtain ⟨first, hfirst⟩ := h.exists_use
  obtain ⟨name, hname, _⟩ := Token.exists_name_of_optionUse? hfirst
  rw [hname]
  rfl

/-! ## What a line does -/

namespace Reading

/-- Behind what has been read, the line opens a record: it is no part of a description, and
it starts with an option name. -/
structure Opens (r : Reading) (line : List Char) : Prop where
  free : r.wraps (byteWidth (indent line).taken) = false
  named : (optionName? (indent line).rest).isSome = true

/-- What a line does that is read.  It goes on with the latest description, or it opens a
record. -/
inductive Step (r : Reading) (line : SourceLine) : Reading → Prop
  | fragment (hcloses : ¬ r.Opens line.text) : Step r line (r.addFragment (indent line.text).rest)
  | record {heading : Heading} (hopens : r.Opens line.text)
      (hheading : readHeading (indent line.text).rest = .ok heading) :
      Step r line (r.addRecord line (byteWidth (indent line.text).taken) heading)

theorem step_of_readLine {r r' : Reading} {line : SourceLine} (h : r.readLine line = .ok r') :
    Step r line r' := by
  simp only [readLine] at h
  split at h
  · rename_i hwraps
    obtain rfl := Except.ok.inj h
    refine .fragment fun hopens => ?_
    rw [hopens.free] at hwraps
    cases hwraps
  · rename_i hfree
    cases hheading : readHeading (indent line.text).rest with
    | error tail =>
      rw [hheading] at h
      cases h
    | ok heading =>
      have hnames := names_eq_nil_iff hheading
      rw [hheading] at h
      simp only at h
      split at h
      · rename_i hempty
        obtain rfl := Except.ok.inj h
        refine .fragment fun hopens => ?_
        have hnamed := hopens.named
        rw [hnames.1 (List.isEmpty_iff.1 hempty)] at hnamed
        cases hnamed
      · rename_i hfilled
        obtain rfl := Except.ok.inj h
        refine .record ⟨by simpa using hfree, ?_⟩ hheading
        rw [Option.isSome_iff_ne_none]
        exact fun hnone => hfilled (List.isEmpty_iff.2 (hnames.2 hnone))

end Reading

/-! ## Sections that cannot be read -/

theorem Reading.readLine_eq_error_iff {r : Reading} {line : SourceLine}
    {failure : ParseFailure} :
    r.readLine line = .error failure ↔
      ∃ use, r.Opens line.text ∧ Leading (indent line.text).rest use ∧
        ¬ CanFollow use.rest ∧ failure = line.failure .malformedOption use.rest := by
  constructor
  · intro h
    simp only [readLine] at h
    split at h
    · cases h
    · rename_i hfree
      cases hread : readHeading (indent line.text).rest with
      | ok heading =>
        rw [hread] at h
        simp only at h
        split at h <;> cases h
      | error tail =>
        rw [hread] at h
        obtain ⟨use, hleading, hstray, rfl⟩ := readHeading_eq_error_iff.1 hread
        obtain rfl := Except.error.inj h
        exact ⟨use, ⟨by simpa using hfree, hleading.named⟩, hleading, hstray, rfl⟩
  · rintro ⟨use, hopens, hleading, hstray, rfl⟩
    have hread := readHeading_eq_error_iff.2 ⟨use, hleading, hstray, rfl⟩
    simp [readLine, hopens.free, hread]

/-- Some line that opens a record starts with a run of names one of which is followed by
nothing that `canFollow`.  The failure points there. -/
inductive Strays (canFollow : List Char → Prop) (ls : List (List Char)) : ParseFailure → Prop
  | behind {before after : List (List Char)} {line : List Char} {r : Reading}
      {use : OptionUse} (hlines : ls = before ++ line :: after)
      (hread : (SourceLine.numbered 1 before).foldlM Reading.readLine .start = .ok r)
      (hopens : r.Opens line) (hleading : Leading (indent line).rest use)
      (hstray : ¬ canFollow use.rest) :
      Strays canFollow ls
        (SourceLine.failure ⟨line, 1 + before.length⟩ .malformedOption use.rest)

/-- A section is refused exactly when a name at the start of a record runs into something
that can follow no name. -/
theorem parse_eq_error_iff (text : String) (failure : ParseFailure) :
    parse text = .error failure ↔ Strays CanFollow (Text.lines text.toList) failure := by
  rw [parse, ofLines, SourceLine.ofLines_eq_numbered, map_eq_error_iff,
    SourceLine.foldlM_eq_error_iff]
  constructor
  · rintro ⟨before, line, after, r, hlines, hread, hline⟩
    obtain ⟨use, hopens, hleading, hstray, rfl⟩ := Reading.readLine_eq_error_iff.1 hline
    exact .behind hlines hread hopens hleading hstray
  · rintro ⟨hlines, hread, hopens, hleading, hstray⟩
    exact ⟨_, _, _, _, hlines, hread,
      Reading.readLine_eq_error_iff.2 ⟨_, hopens, hleading, hstray, rfl⟩⟩

/-- In `-a foo` the separator has no name behind it, and still the section is read. -/
theorem lone_separator_is_read :
    ¬ ((∃ failure, parse "-a foo" = .error failure ∧ failure.kind = .malformedOption) ↔
      ∃ failure, Strays CanFollowStrictly (Text.lines "-a foo".toList) failure) := by
  have hread : parse "-a foo" = .ok [⟨["-a"], none, 0, ["foo"], 1⟩] := by
    with_unfolding_all rfl
  have hstrays : ∃ failure, Strays CanFollowStrictly (Text.lines "-a foo".toList) failure := by
    have hlines : Text.lines "-a foo".toList = [] ++ "-a foo".toList :: [] := rfl
    have hopens : Reading.start.Opens "-a foo".toList := ⟨rfl, by decide⟩
    have huse : optionUse? (indent "-a foo".toList).rest =
        some ⟨"-a".toList, [], none, " foo".toList⟩ := rfl
    refine ⟨_, .behind hlines rfl hopens (.first huse) ?_⟩
    rintro (hgap | hend | ⟨cut, hseparator, hname⟩)
    · cases hgap
    · revert hend
      decide
    · obtain rfl := Option.some.inj hseparator
      revert hname
      decide
  intro h
  obtain ⟨failure, hfailure, _⟩ := h.2 hstrays
  cases hread.symm.trans hfailure

end OptionRecord

end Synopsis
