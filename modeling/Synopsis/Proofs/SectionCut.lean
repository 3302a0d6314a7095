import Mathlib.Data.List.TakeWhile
import Synopsis.Proofs.Openings
import Synopsis.Proofs.Trimming

/-!
# The cut of a document into its sections

Three loops read the lines of a document one behind the other: up to the usage header, up to
the first blank line, and over the options section, whose end is taken back over the blank lines
before it.  Here the same cut is said of the lines, with what each part ends at.

* `OptionsOf` is the options section among the lines behind the usage section, and `CutOf` the
  cut of the document.
* Each cut is the one that is found (`ofLines?_of_cut`), and there is a cut of every document
  (`exists_cut`).
* `lines_trim_joinLines` is what trimming leaves of the usage section: no blank line.

`sections_are_cut` is the result.
-/

namespace Synopsis.Help

open Lexeme Text

/-! ## The parts of a document -/

/-- A line that an options section ends before. -/
structure LeavesOptions (line : List Char) : Prop where
  filled : isBlankLine line = false
  unindented : ∀ c ∈ line.head?, isBlank c = false
  unnamed : optionName? line = none

/-- The options section among the lines behind the usage section: from the first line that
starts with an option name up to the first line behind it that leaves the section, without the
blank lines at its end. -/
inductive OptionsOf : List (List Char) → Option (List (List Char)) → Prop
  | missing {ls : List (List Char)}
      (hnone : ∀ line ∈ ls, optionName? (trimStart line) = none) : OptionsOf ls none
  | block {skipped more padding after : List (List Char)} {first : List Char}
      (hskipped : ∀ line ∈ skipped, optionName? (trimStart line) = none)
      (hfirst : (optionName? (trimStart first)).isSome = true)
      (hmore : ∀ line ∈ more ++ padding, ¬ LeavesOptions line)
      (hlast : ∀ line ∈ (first :: more).getLast?, isBlankLine line = false)
      (hpadding : ∀ line ∈ padding, isBlankLine line = true)
      (hafter : ∀ line ∈ after.head?, LeavesOptions line) :
      OptionsOf (skipped ++ ((first :: more) ++ padding ++ after)) (some (first :: more))

/-- The cut of a document with these lines: nothing without a usage header, and else the rest of
the first header with the lines up to a blank one, and the options section behind this one. -/
inductive CutOf : List (List Char) → Option Sections → Prop
  | missing {ls : List (List Char)} (hnone : ∀ line ∈ ls, usageHeader? line = none) :
      CutOf ls none
  | found {before usage rest : List (List Char)} {header : List Char} {cut : Cut}
      {block : Option (List (List Char))}
      (hbefore : ∀ line ∈ before, usageHeader? line = none)
      (hheader : usageHeader? header = some cut)
      (husage : ∀ line ∈ usage, isBlankLine line = false)
      (hrest : ∀ line ∈ rest.head?, isBlankLine line = true)
      (hoptions : OptionsOf (rest.drop 1) block) :
      CutOf (before ++ header :: (usage ++ rest))
        (some ⟨String.ofList (trim (joinLines (cut.rest :: usage))),
          block.map fun ls => String.ofList (joinLines ls)⟩)

/-! ## Kinds of lines -/

section Line

variable {line : List Char}

theorem definesOption_eq_false_iff :
    definesOption line = false ↔ optionName? (trimStart line) = none := by
  rw [definesOption, Option.isSome_eq_false_iff, Option.isNone_iff_eq_none]

theorem trimStart_of_head (h : ∀ c ∈ line.head?, isBlank c = false) : trimStart line = line := by
  cases line with
  | nil => rfl
  | cons c line => simp [trimStart, h c rfl]

theorem staysInOptions_eq_false_iff : staysInOptions line = false ↔ LeavesOptions line := by
  rw [staysInOptions, Bool.or_eq_false_iff, definesOption_eq_false_iff]
  cases line with
  | nil => exact iff_of_false (by simp [atMargin]) fun h => by cases h.filled
  | cons c line =>
    constructor
    · rintro ⟨hmargin, hname⟩
      have hc : isBlank c = false := by simpa [atMargin] using hmargin
      have hhead : ∀ d ∈ (c :: line).head?, isBlank d = false := by simpa using hc
      rw [trimStart_of_head hhead] at hname
      exact ⟨by simp [isBlankLine, hc], hhead, hname⟩
    · intro h
      rw [trimStart_of_head h.unindented]
      exact ⟨by simp [atMargin, h.unindented c rfl], h.unnamed⟩

theorem staysInOptions_eq_true_iff : staysInOptions line = true ↔ ¬ LeavesOptions line := by
  rw [← staysInOptions_eq_false_iff, Bool.not_eq_false]

end Line

/-! ## A cut is the one that is found -/

theorem dropBlankEnd_append {ls padding : List (List Char)}
    (hlast : ∀ line ∈ ls.getLast?, isBlankLine line = false)
    (hpadding : ∀ line ∈ padding, isBlankLine line = true) :
    dropBlankEnd (ls ++ padding) = ls := by
  have hself : ls.rdropWhile isBlankLine = ls :=
    List.rdropWhile_eq_self_iff.2 fun hne => by simp [hlast _ (List.getLast_mem_getLast? hne)]
  exact (rdropWhile_append_of_pos ls hpadding).trans hself

theorem exists_dropBlankEnd (ls : List (List Char)) :
    ∃ padding, dropBlankEnd ls ++ padding = ls ∧ (∀ line ∈ padding, isBlankLine line = true) ∧
      ∀ line ∈ (dropBlankEnd ls).getLast?, isBlankLine line = false :=
  ⟨ls.rtakeWhile isBlankLine, List.rdropWhile_append_rtakeWhile,
    fun _ => List.mem_rtakeWhile_imp, getLast?_rdropWhile ls⟩

theorem optionLines?_of_options {ls : List (List Char)} {block : Option (List (List Char))}
    (h : OptionsOf ls block) : optionLines? ls = block := by
  cases h with
  | missing hnone =>
    have hdrop : ls.dropWhile (!definesOption ·) = [] := by
      rw [List.dropWhile_eq_nil_iff]
      intro line hline
      rw [definesOption_eq_false_iff.2 (hnone line hline), Bool.not_false]
    rw [optionLines?, hdrop]
  | @block skipped more padding after first hskipped hfirst hmore hlast hpadding hafter =>
    have hdefines : definesOption first = true := hfirst
    have hdrop : (skipped ++ ((first :: more) ++ padding ++ after)).dropWhile (!definesOption ·) =
        first :: (more ++ padding ++ after) := by
      refine (span_append (fun line hline => ?_) fun line hline => ?_).2
      · rw [definesOption_eq_false_iff.2 (hskipped line hline), Bool.not_false]
      · obtain rfl := Option.some.inj hline
        rw [hdefines, Bool.not_true]
    have hstay : (more ++ padding ++ after).takeWhile staysInOptions = more ++ padding :=
      (span_append (fun line hline => staysInOptions_eq_true_iff.2 (hmore line hline))
        fun line hline => staysInOptions_eq_false_iff.2 (hafter line hline)).1
    rw [optionLines?, hdrop]
    simp only [hstay]
    exact congrArg some (dropBlankEnd_append hlast hpadding)

theorem afterHeader?_append {before : List (List Char)}
    (h : ∀ line ∈ before, usageHeader? line = none) (rest : List (List Char)) :
    afterHeader? (before ++ rest) = afterHeader? rest := by
  induction before with
  | nil => rfl
  | cons line before ih =>
    rw [List.cons_append, afterHeader?, h line List.mem_cons_self]
    exact ih fun l hl => h l (List.mem_cons_of_mem line hl)

theorem ofLines?_of_cut {ls : List (List Char)} {sections : Option Sections}
    (h : CutOf ls sections) : Sections.ofLines? ls = sections := by
  cases h with
  | missing hnone =>
    rw [Sections.ofLines?, ← List.append_nil ls, afterHeader?_append hnone]
    rfl
  | @found before usage rest header cut block hbefore hheader husage hrest hoptions =>
    obtain ⟨htake, hdrop⟩ : (usage ++ rest).takeWhile (!isBlankLine ·) = usage ∧
        (usage ++ rest).dropWhile (!isBlankLine ·) = rest := by
      refine span_append (fun line hline => ?_) fun line hline => ?_
      · rw [husage line hline, Bool.not_false]
      · rw [hrest line hline, Bool.not_true]
    rw [Sections.ofLines?, afterHeader?_append hbefore, afterHeader?, hheader]
    simp only [Option.map_some, usageLines, linesAfterUsage, htake, hdrop,
      optionLines?_of_options hoptions]

/-! ## Every document has a cut -/

theorem exists_options (ls : List (List Char)) : ∃ block, OptionsOf ls block := by
  have hskipped : ∀ line ∈ ls.takeWhile (!definesOption ·),
      optionName? (trimStart line) = none := by
    intro line hline
    rw [← definesOption_eq_false_iff]
    simpa using List.all_eq_true.1 List.all_takeWhile line hline
  have hsplit : ls.takeWhile (!definesOption ·) ++ ls.dropWhile (!definesOption ·) = ls :=
    List.takeWhile_append_dropWhile
  have hhead : ∀ line ∈ (ls.dropWhile (!definesOption ·)).head?, (!definesOption line) = false :=
    head?_dropWhile ls
  cases hdrop : ls.dropWhile (!definesOption ·) with
  | nil =>
    rw [hdrop, List.append_nil] at hsplit
    exact ⟨none, .missing (hsplit ▸ hskipped)⟩
  | cons first rest =>
    rw [hdrop] at hsplit hhead
    have hfirst : definesOption first = true := by simpa using hhead
    obtain ⟨more, hmore⟩ := dropBlankEnd_cons (isBlankLine_of_definesOption hfirst)
      (rest.takeWhile staysInOptions)
    obtain ⟨padding, hend, hpadding, hlast⟩ :=
      exists_dropBlankEnd (first :: rest.takeWhile staysInOptions)
    rw [hmore] at hend hlast
    have hstays : rest.takeWhile staysInOptions = more ++ padding := (List.cons.inj hend.symm).2
    have hrest : rest = more ++ padding ++ rest.dropWhile staysInOptions := by
      rw [← hstays, List.takeWhile_append_dropWhile]
    rw [hrest] at hsplit
    rw [← hsplit]
    refine ⟨some (first :: more), .block hskipped hfirst ?_ hlast hpadding ?_⟩
    · intro line hline
      rw [← hstays] at hline
      exact staysInOptions_eq_true_iff.1 (List.all_eq_true.1 List.all_takeWhile line hline)
    · intro line hline
      exact staysInOptions_eq_false_iff.1 (head?_dropWhile rest line hline)

theorem exists_header (ls : List (List Char)) : (∀ line ∈ ls, usageHeader? line = none) ∨
    ∃ before header later cut, ls = before ++ header :: later ∧
      (∀ line ∈ before, usageHeader? line = none) ∧ usageHeader? header = some cut := by
  induction ls with
  | nil => exact Or.inl (by simp)
  | cons line ls ih =>
    cases hline : usageHeader? line with
    | some cut => exact Or.inr ⟨[], line, ls, cut, rfl, by simp, hline⟩
    | none =>
      rcases ih with hnone | ⟨before, header, later, cut, rfl, hbefore, hheader⟩
      · exact Or.inl (List.forall_mem_cons.2 ⟨hline, hnone⟩)
      · exact Or.inr ⟨line :: before, header, later, cut, rfl,
          List.forall_mem_cons.2 ⟨hline, hbefore⟩, hheader⟩

theorem exists_cut (ls : List (List Char)) : ∃ sections, CutOf ls sections := by
  rcases exists_header ls with hnone | ⟨before, header, later, cut, rfl, hbefore, hheader⟩
  · exact ⟨none, .missing hnone⟩
  · obtain ⟨block, hblock⟩ := exists_options ((later.dropWhile (!isBlankLine ·)).drop 1)
    have husage : ∀ line ∈ later.takeWhile (!isBlankLine ·), isBlankLine line = false :=
      fun line hline => by simpa using List.all_eq_true.1 List.all_takeWhile line hline
    have hrest : ∀ line ∈ (later.dropWhile (!isBlankLine ·)).head?, isBlankLine line = true :=
      fun line hline => by simpa using head?_dropWhile later line hline
    have hcut := CutOf.found hbefore hheader husage hrest hblock
    rw [List.takeWhile_append_dropWhile] at hcut
    exact ⟨_, hcut⟩

theorem ofLines?_eq_iff (ls : List (List Char)) (sections : Option Sections) :
    Sections.ofLines? ls = sections ↔ CutOf ls sections := by
  constructor
  · rintro rfl
    obtain ⟨sections, hcut⟩ := exists_cut ls
    rwa [ofLines?_of_cut hcut]
  · exact ofLines?_of_cut

/-! ## No blank line is left in the usage section -/

/-- A line that is not blank. -/
structure IsFilled (line : List Char) : Prop where
  oneLine : '\n' ∉ line
  filled : isBlankLine line = false

/-- A line that is not blank keeps more than its blanks. -/
theorem IsFilled.parts {lead s pad : List Char} (h : IsFilled (lead ++ (s ++ pad)))
    (hlead : ∀ c ∈ lead, isBlank c = true) (hpad : ∀ c ∈ pad, isBlank c = true) :
    IsFilled s := by
  have hleadBlank : isBlankLine lead = true := List.all_eq_true.2 hlead
  have hpadBlank : isBlankLine pad = true := List.all_eq_true.2 hpad
  refine ⟨fun hmem => h.oneLine (by simp [hmem]), ?_⟩
  have hfilled := h.filled
  rwa [Usage.isBlankLine_append, Usage.isBlankLine_append, hleadBlank, hpadBlank, Bool.true_and,
    Bool.and_true] at hfilled

/-- Blanks before the text are those of its first line. -/
theorem trimStart_joinLines {first : List Char} {ls : List (List Char)} (hfirst : IsFilled first)
    (hls : ∀ line ∈ ls, IsFilled line) :
    ∃ ls', trimStart (joinLines (first :: ls)) = joinLines ls' ∧ ∀ line ∈ ls', IsFilled line := by
  have hlead : ∀ c ∈ first.takeWhile isBlank, isBlank c = true :=
    List.all_eq_true.1 List.all_takeWhile
  have hsplit : first.takeWhile isBlank ++ trimStart first = first :=
    List.takeWhile_append_dropWhile
  have hstart : IsFilled (trimStart first) := by
    rw [← hsplit, ← List.append_nil (trimStart first)] at hfirst
    exact hfirst.parts hlead (by simp)
  have hhead : ∀ c ∈ (joinLines (trimStart first :: ls)).head?, isBlank c = false := by
    have hne := Usage.ne_nil_of_isBlankLine hstart.filled
    rw [← List.append_nil (trimStart first), Usage.joinLines_behind,
      List.head?_append_of_ne_nil _ hne]
    exact head?_dropWhile first
  refine ⟨trimStart first :: ls, ?_, List.forall_mem_cons.2 ⟨hstart, hls⟩⟩
  rw [← hsplit, Usage.joinLines_behind, hsplit, trimStart, List.dropWhile_append_of_pos hlead]
  exact trimStart_of_head hhead

/-- A blank first line goes with the blanks before the text. -/
theorem trimStart_joinLines_blank {first : List Char} {ls : List (List Char)}
    (hfirst : isBlankLine first = true) (hls : ∀ line ∈ ls, IsFilled line) :
    ∃ ls', trimStart (joinLines (first :: ls)) = joinLines ls' ∧ ∀ line ∈ ls', IsFilled line := by
  have hblank : ∀ c ∈ first, isBlank c = true := List.all_eq_true.1 hfirst
  cases ls with
  | nil => exact ⟨[], List.dropWhile_eq_nil_iff.2 hblank, by simp⟩
  | cons next ls =>
    obtain ⟨ls', htrim, hfilled⟩ := trimStart_joinLines (hls next List.mem_cons_self)
      fun line hline => hls line (List.mem_cons_of_mem next hline)
    refine ⟨ls', ?_, hfilled⟩
    rw [joinLines_cons, trimStart, List.dropWhile_append_of_pos hblank]
    exact htrim

/-- Blanks behind the text are those of its last line. -/
theorem trimEnd_joinLines {ls : List (List Char)} (hls : ∀ line ∈ ls, IsFilled line) :
    ∃ ls', trimEnd (joinLines ls) = joinLines ls' ∧ ∀ line ∈ ls', IsFilled line := by
  by_cases hnil : ls = []
  · subst hnil
    exact ⟨[], rfl, by simp⟩
  · obtain ⟨init, last, rfl⟩ : ∃ init last, ls = init ++ [last] :=
      ⟨_, _, (List.dropLast_concat_getLast hnil).symm⟩
    obtain ⟨pad, hsplit, hpad⟩ := exists_trimEnd last
    have hlast : IsFilled (trimEnd last) := by
      have hfilled : IsFilled ([] ++ (trimEnd last ++ pad)) := by
        rw [List.nil_append, hsplit]
        exact hls last (by simp)
      exact hfilled.parts (by simp) hpad
    have hend : Tight (joinLines (init ++ [trimEnd last])) := by
      rw [← List.nil_append (trimEnd last), Usage.joinLines_before]
      exact (tight_trimEnd last).append_of_ne_nil (Usage.ne_nil_of_isBlankLine hlast.filled) _
    have htrim : trimEnd (joinLines (init ++ [trimEnd last ++ pad])) =
        joinLines (init ++ [trimEnd last]) := by
      rw [Usage.joinLines_before, trimEnd_append_of_blank _ hpad, hend.trimEnd_eq]
    refine ⟨init ++ [trimEnd last], ?_, fun line hline => ?_⟩
    · rw [← htrim]
      exact congrArg (fun l => trimEnd (joinLines (init ++ [l]))) hsplit.symm
    · rcases List.mem_append.1 hline with hline | hline
      · exact hls line (List.mem_append_left _ hline)
      · obtain rfl := List.mem_singleton.1 hline
        exact hlast

/-- Lines that are joined are read again, but for carriage returns at their ends. -/
theorem filled_of_mem_lines {ls : List (List Char)} (hls : ∀ line ∈ ls, IsFilled line) :
    ∀ line ∈ Text.lines (joinLines ls), isBlankLine line = false := by
  induction ls with
  | nil => simp [joinLines, Text.lines]
  | cons first ls ih =>
    obtain ⟨hfirst, hlater⟩ := List.forall_mem_cons.1 hls
    cases ls with
    | nil =>
      rw [joinLines, lines_of_one (Usage.ne_nil_of_isBlankLine hfirst.filled) hfirst.oneLine]
      simpa using hfirst.filled
    | cons next ls =>
      obtain ⟨first', hread, hsame⟩ :=
        exists_lines_append_newline hfirst.oneLine (joinLines (next :: ls))
      rw [joinLines_cons, hread]
      refine List.forall_mem_cons.2 ⟨?_, ih hlater⟩
      have hfilled := hfirst.filled
      rcases hsame with rfl | rfl
      · exact hfilled
      · have hreturn : isBlankLine ['\r'] = true := rfl
        rwa [Usage.isBlankLine_append, hreturn, Bool.and_true] at hfilled

/-- Trimming leaves no blank line behind a header with lines that are not blank. -/
theorem lines_trim_joinLines {first : List Char} {ls : List (List Char)} (hfirst : '\n' ∉ first)
    (hls : ∀ line ∈ ls, IsFilled line) :
    ∀ line ∈ Text.lines (trim (joinLines (first :: ls))), isBlankLine line = false := by
  obtain ⟨ls', hstart, hfilled⟩ : ∃ ls', trimStart (joinLines (first :: ls)) = joinLines ls' ∧
      ∀ line ∈ ls', IsFilled line := by
    cases hblank : isBlankLine first with
    | true => exact trimStart_joinLines_blank hblank hls
    | false => exact trimStart_joinLines ⟨hfirst, hblank⟩ hls
  obtain ⟨trimmed, hend, hfilled⟩ := trimEnd_joinLines hfilled
  rw [trim, hstart, hend]
  exact filled_of_mem_lines hfilled

/-! ## The cut of a document -/

/-- The sections of a document stand in its lines.  No line of the usage section is blank, and
the options section is a block of lines that starts and ends with one that is not blank. -/
structure StandsIn (ls : List (List Char)) (sections : Sections) : Prop where
  usage : ∀ line ∈ Text.lines sections.usage.toList, isBlankLine line = false
  options : ∀ options, sections.options = some options → ∃ first more,
    options = String.ofList (joinLines (first :: more)) ∧ first :: more <:+: ls ∧
      isBlankLine first = false ∧ ∀ line ∈ (first :: more).getLast?, isBlankLine line = false

theorem OptionsOf.block_infix {ls block : List (List Char)} (h : OptionsOf ls (some block)) :
    ∃ first more, block = first :: more ∧ block <:+: ls ∧ isBlankLine first = false ∧
      ∀ line ∈ block.getLast?, isBlankLine line = false := by
  cases h with
  | @block skipped more padding after first hskipped hfirst hmore hlast hpadding hafter =>
    exact ⟨first, more, rfl, ⟨skipped, padding ++ after, by simp⟩,
      isBlankLine_of_definesOption hfirst, hlast⟩

theorem CutOf.none_iff {ls : List (List Char)} :
    CutOf ls none ↔ ∀ line ∈ ls, usageHeader? line = none := by
  constructor
  · rintro ⟨hnone⟩
    exact hnone
  · exact .missing

theorem CutOf.standsIn {ls : List (List Char)} {sections : Sections}
    (hls : ∀ line ∈ ls, '\n' ∉ line) (h : CutOf ls (some sections)) : StandsIn ls sections := by
  cases h with
  | @found before usage rest header cut block hbefore hheader husage hrest hoptions =>
    constructor
    · rw [String.toList_ofList]
      refine lines_trim_joinLines (fun hmem => ?_) fun line hline => ⟨?_, husage line hline⟩
      · have hparts : cut.taken ++ cut.rest = header := usageHeader?_isOf hheader
        exact hls header (by simp) (hparts ▸ List.mem_append_right cut.taken hmem)
      · exact hls line (by simp [hline])
    · intro options hsome
      obtain ⟨block, rfl, rfl⟩ := Option.map_eq_some_iff.1 hsome
      obtain ⟨first, more, rfl, hinfix, hfirst, hlast⟩ := hoptions.block_infix
      have hsuffix : rest.drop 1 <:+ before ++ header :: (usage ++ rest) :=
        (List.drop_suffix 1 rest).trans ⟨before ++ header :: usage, by simp⟩
      exact ⟨first, more, rfl, hinfix.trans hsuffix.isInfix, hfirst, hlast⟩

/-- The sections that are found are those of the cut. -/
theorem sections_are_cut (document : String) :
    (∀ sections, Sections.ofDocument? document = sections ↔
      CutOf (Text.lines document.toList) sections) ∧
      (Sections.ofDocument? document = none ↔
        ∀ line ∈ Text.lines document.toList, usageHeader? line = none) ∧
      ∀ sections, Sections.ofDocument? document = some sections →
        StandsIn (Text.lines document.toList) sections := by
  have hcut := ofLines?_eq_iff (Text.lines document.toList)
  refine ⟨hcut, (hcut none).trans CutOf.none_iff, fun sections hsections => ?_⟩
  exact ((hcut _).1 hsections).standsIn fun line hline => not_mem_of_mem_lines hline

/-- A document with text around both sections, a blank line inside the options section, and one
at its end. -/
theorem sections_are_cut_among_text :
    Sections.ofDocument? "Fate\n USAGE: \n p a\n  p b \n \nAll\n\t-a  A\n\n  b\n-c\n\t\nEnd\n-d" =
        some ⟨"p a\n  p b", some "\t-a  A\n\n  b\n-c"⟩ ∧
      CutOf ["Fate".toList, " USAGE: ".toList, " p a".toList, "  p b ".toList, " ".toList,
          "All".toList, "\t-a  A".toList, [], "  b".toList, "-c".toList, "\t".toList, "End".toList,
          "-d".toList]
        (some ⟨"p a\n  p b", some "\t-a  A\n\n  b\n-c"⟩) ∧
      StandsIn ["Fate".toList, " USAGE: ".toList, " p a".toList, "  p b ".toList, " ".toList,
          "All".toList, "\t-a  A".toList, [], "  b".toList, "-c".toList, "\t".toList, "End".toList,
          "-d".toList]
        ⟨"p a\n  p b", some "\t-a  A\n\n  b\n-c"⟩ := by
  have hread : Sections.ofDocument?
      "Fate\n USAGE: \n p a\n  p b \n \nAll\n\t-a  A\n\n  b\n-c\n\t\nEnd\n-d" =
        some ⟨"p a\n  p b", some "\t-a  A\n\n  b\n-c"⟩ := by
    with_unfolding_all rfl
  obtain ⟨hcut, -, hstands⟩ := sections_are_cut
    "Fate\n USAGE: \n p a\n  p b \n \nAll\n\t-a  A\n\n  b\n-c\n\t\nEnd\n-d"
  exact ⟨hread, (hcut _).1 hread, hstands _ hread⟩

end Synopsis.Help
