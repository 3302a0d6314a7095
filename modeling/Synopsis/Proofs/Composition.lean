import Synopsis.Help.Compiled
import Synopsis.Proofs.SectionCut

/-!
# A help document is compiled part by part

`Parts` are the parts of a document that has both sections: what stands before the usage
header, the usage section, a blank line, the options section, and what stands behind it.
The conditions on them say no more than where each part ends.

* `ofLines?_parts` finds the sections of such a document.  The usage section is found
  trimmed, and reads the same (`parse_trimmed`).
* `expandForms_eq_error_iff` and `expandForms_eq_ok_iff` are the two outcomes of the usage
  section: the first form that cannot be expanded, or the variants of all of them.
* `compile_parts` puts these together: what is compiled depends on the two sections only.
-/

namespace Synopsis.Help

open Lexeme Text

/-! ## The parts of a document -/

/-- The lines of a document in parts.  `first` and `more` are the lines of the options
section, which goes on over `padding` up to the lines `after` it. -/
structure Parts where
  before : List (List Char)
  usage : String
  gap : List Char
  first : List Char
  more : List (List Char)
  padding : List (List Char)
  after : List (List Char)
  before_header : ∀ line ∈ before, usageHeader? line = none
  usage_filled : ∀ line ∈ Text.lines usage.toList, isBlankLine line = false
  gap_blank : isBlankLine gap = true
  first_defines : (optionName? (indent first).rest).isSome = true
  more_stays : ∀ line ∈ more, isBlankLine line = true ∨
    (∃ c ∈ line.head?, isBlank c = true) ∨ (optionName? line).isSome = true
  last_filled : ∀ line ∈ (first :: more).getLast?, isBlankLine line = false
  padding_blank : ∀ line ∈ padding, isBlankLine line = true
  after_leaves : ∀ line ∈ after.head?, isBlankLine line = false ∧
    (∀ c ∈ line.head?, isBlank c = false) ∧ optionName? line = none

namespace Parts

/-- The lines of the document. -/
def lines (parts : Parts) : List (List Char) :=
  parts.before ++ "Usage:".toList :: (Text.lines parts.usage.toList ++
    parts.gap :: ((parts.first :: parts.more) ++ parts.padding ++ parts.after))

/-- The text of the options section. -/
def optionText (parts : Parts) : String :=
  String.ofList (joinLines (parts.first :: parts.more))

end Parts

/-! ## The sections of the parts -/

/-- What starts with an option name behind layout defines an option. -/
theorem definesOption_of_name {pad s : List Char} (hpad : IsPad pad)
    (h : (optionName? s).isSome = true) : definesOption (pad ++ s) = true := by
  obtain ⟨cut, hcut⟩ := Option.isSome_iff_exists.1 h
  obtain ⟨name, hname⟩ := exists_dash_of_optionName? hcut
  have hs : cut.taken ++ cut.rest = s := (takes_of_optionName? hcut).1
  have htrim : trimStart (pad ++ s) = s := by
    rw [trimStart, List.dropWhile_append_of_pos hpad.isBlank, ← hs, hname]
    rfl
  rw [definesOption, htrim]
  exact h

namespace Parts

variable (parts : Parts)

theorem not_leavesOptions_more : ∀ line ∈ parts.more ++ parts.padding,
    ¬ LeavesOptions line := by
  intro line hline hleaves
  rcases List.mem_append.1 hline with hline | hline
  · rcases parts.more_stays line hline with hblank | ⟨c, hc, hblank⟩ | hname
    · cases hblank.symm.trans hleaves.filled
    · cases hblank.symm.trans (hleaves.unindented c hc)
    · rw [hleaves.unnamed] at hname
      cases hname
  · cases (parts.padding_blank line hline).symm.trans hleaves.filled

theorem optionsOf_parts :
    OptionsOf ((parts.first :: parts.more) ++ parts.padding ++ parts.after)
      (some (parts.first :: parts.more)) := by
  have hfirst : definesOption parts.first = true := by
    have hline : (indent parts.first).taken ++ (indent parts.first).rest = parts.first :=
      Cut.run_isOf _ parts.first
    rw [← hline]
    exact definesOption_of_name (indent_taken_isPad parts.first) parts.first_defines
  have hafter : ∀ line ∈ parts.after.head?, LeavesOptions line := by
    intro line hline
    obtain ⟨hfilled, hmargin, hname⟩ := parts.after_leaves line hline
    exact ⟨hfilled, hmargin, hname⟩
  have hskipped : ∀ line ∈ ([] : List (List Char)), optionName? (trimStart line) = none := by simp
  exact .block hskipped hfirst parts.not_leavesOptions_more parts.last_filled parts.padding_blank
    hafter

/-- The sections of a document in parts. -/
theorem ofLines?_parts : Sections.ofLines? parts.lines =
    some ⟨String.ofList (trim (joinLines ([] :: Text.lines parts.usage.toList))),
      some parts.optionText⟩ := by
  have hheader : usageHeader? "Usage:".toList = some ⟨"Usage:".toList, []⟩ := rfl
  have hgap : ∀ line ∈ (parts.gap :: ((parts.first :: parts.more) ++ parts.padding ++
      parts.after)).head?, isBlankLine line = true := by
    intro line hline
    obtain rfl := Option.some.inj hline
    exact parts.gap_blank
  have hcut := CutOf.found parts.before_header hheader parts.usage_filled hgap
    parts.optionsOf_parts
  exact ofLines?_of_cut hcut

end Parts

/-! ## The usage section of the parts -/

/-- The text of a usage section, trimmed behind the header, reads the same. -/
theorem parse_trimmed {text : String} {usage : Usage} (h : Usage.parse text = .ok usage)
    (hfilled : ∀ line ∈ Text.lines text.toList, isBlankLine line = false)
    (hreturn : ∀ line ∈ Text.lines text.toList, '\r' ∉ line) :
    Usage.parse (String.ofList (trim (joinLines ([] :: Text.lines text.toList)))) =
      .ok usage := by
  obtain ⟨ls, hsame, htrim, hlast, hfree⟩ := Usage.exists_trimmed h hfilled
  have hheader : trim (joinLines ([] :: Text.lines text.toList)) =
      trim (joinLines (Text.lines text.toList)) := by
    cases Text.lines text.toList with
    | nil => rfl
    | cons line more => rfl
  have hisLine : ∀ line ∈ ls, IsLine line := by
    intro line hline
    have hnewline : '\n' ∉ line := hfree '\n' (fun l hl => not_mem_of_mem_lines hl) line hline
    refine ⟨hnewline, fun hend => ?_⟩
    exact hfree '\r' hreturn line hline (List.mem_of_getLast? hend)
  rw [Usage.parse, String.toList_ofList, hheader, htrim, lines_joinLines hisLine hlast]
  exact hsame

/-! ## The forms of the usage section -/

section Forms

variable {limit : Option Nat} (position : Nat)

/-- The forms are all expanded, each with its own variants. -/
theorem expandForms_eq_ok_iff {forms : List Grammar} {usages : List CompiledUsage} :
    expandForms limit position forms = .ok usages ↔
      usages.map CompiledUsage.source = forms ∧
        ∀ u ∈ usages, u.source.expand limit = .ok u.variants := by
  induction forms generalizing position usages with
  | nil =>
    rw [expandForms, List.map_eq_nil_iff]
    constructor
    · intro h
      obtain rfl := Except.ok.inj h
      simp
    · rintro ⟨rfl, _⟩
      rfl
  | cons g forms ih =>
    rw [expandForms]
    constructor
    · intro h
      cases hg : g.expand limit with
      | error cause =>
        rw [hg] at h
        cases h
      | ok variants =>
        simp only [hg] at h
        obtain ⟨later, rfl, hlater⟩ := exists_of_map_ok h
        obtain ⟨hsources, hvariants⟩ := (ih (position + 1)).1 hlater
        refine ⟨by simp [hsources], fun u hu => ?_⟩
        rcases List.mem_cons.1 hu with rfl | hu
        · exact hg
        · exact hvariants u hu
    · rintro ⟨hsources, hvariants⟩
      obtain ⟨first, later, rfl, rfl, hforms⟩ := List.map_eq_cons_iff.1 hsources
      have hlater := (ih (position + 1)).2
        ⟨hforms, fun u hu => hvariants u (List.mem_cons_of_mem first hu)⟩
      rw [hvariants first List.mem_cons_self]
      simp only [hlater]
      rfl

/-- The first form that cannot be expanded decides. -/
theorem expandForms_eq_error_iff {forms : List Grammar} {error : CompileError} :
    expandForms limit position forms = .error error ↔
      ∃ earlier g later cause, forms = earlier ++ g :: later ∧
        (∀ g' ∈ earlier, ∃ variants, g'.expand limit = .ok variants) ∧
          g.expand limit = .error cause ∧ error = .grammar (position + earlier.length) cause := by
  induction forms generalizing position with
  | nil => simp [expandForms]
  | cons first forms ih =>
    rw [expandForms]
    cases hfirst : first.expand limit with
    | error cause =>
      constructor
      · intro h
        obtain rfl := Except.error.inj h
        exact ⟨[], first, forms, cause, rfl, by simp, hfirst, rfl⟩
      · rintro ⟨earlier, g, later, cause', hsplit, hearlier, hcause, rfl⟩
        cases earlier with
        | nil =>
          obtain ⟨rfl, rfl⟩ := List.cons.inj hsplit
          obtain rfl := Except.error.inj (hfirst.symm.trans hcause)
          rfl
        | cons first' earlier =>
          obtain ⟨rfl, rfl⟩ := List.cons.inj hsplit
          obtain ⟨variants, hok⟩ := hearlier first List.mem_cons_self
          cases hfirst.symm.trans hok
    | ok variants =>
      simp only [map_eq_error_iff, ih (position + 1)]
      constructor
      · rintro ⟨earlier, g, later, cause, rfl, hearlier, hcause, rfl⟩
        refine ⟨first :: earlier, g, later, cause, rfl, fun g' hg' => ?_, hcause, ?_⟩
        · rcases List.mem_cons.1 hg' with rfl | hg'
          · exact ⟨variants, hfirst⟩
          · exact hearlier g' hg'
        · rw [List.length_cons, Nat.add_assoc, Nat.add_comm 1]
      · rintro ⟨earlier, g, later, cause, hsplit, hearlier, hcause, rfl⟩
        cases earlier with
        | nil =>
          obtain ⟨rfl, rfl⟩ := List.cons.inj hsplit
          cases hfirst.symm.trans hcause
        | cons first' earlier =>
          obtain ⟨rfl, rfl⟩ := List.cons.inj hsplit
          refine ⟨earlier, g, later, cause, rfl,
            fun g' hg' => hearlier g' (List.mem_cons_of_mem first hg'), hcause, ?_⟩
          rw [List.length_cons, Nat.add_assoc, Nat.add_comm 1]

theorem expandForms_error {forms : List Grammar} {i : Nat} {g : Grammar} {cause : Fault}
    (hget : forms[i]? = some g) (hcause : g.expand limit = .error cause)
    (hearlier : ∀ g' ∈ forms.take i, ∃ variants, g'.expand limit = .ok variants) :
    expandForms limit position forms = .error (.grammar (position + i) cause) := by
  obtain ⟨hlt, hi⟩ := List.getElem?_eq_some_iff.1 hget
  refine (expandForms_eq_error_iff position).2
    ⟨forms.take i, g, forms.drop (i + 1), cause, ?_, hearlier, hcause, ?_⟩
  · rw [← hi, ← List.drop_eq_getElem_cons hlt, List.take_append_drop]
  · rw [List.length_take, Nat.min_eq_left (Nat.le_of_lt hlt)]

theorem expandForms_ok {forms : List Grammar}
    (h : ∀ g ∈ forms, ∃ variants, g.expand limit = .ok variants) :
    ∃ usages, expandForms limit position forms = .ok usages ∧
      usages.map CompiledUsage.source = forms ∧
        ∀ u ∈ usages, u.source.expand limit = .ok u.variants := by
  cases hforms : expandForms limit position forms with
  | error error =>
    obtain ⟨earlier, g, later, cause, rfl, _, hcause, _⟩ :=
      (expandForms_eq_error_iff position).1 hforms
    obtain ⟨variants, hok⟩ := h g (by simp)
    cases hcause.symm.trans hok
  | ok usages => exact ⟨usages, rfl, (expandForms_eq_ok_iff position).1 hforms⟩

end Forms

/-! ## The document -/

/-- What is compiled of a document whose usage section is read. -/
theorem compile_of_sections {document : String} {sections : Sections} {usage : Usage}
    (hsections : Sections.ofDocument? document = some sections)
    (husage : Usage.parse sections.usage = .ok usage) (limit : Option Nat) :
    compile limit document = (expandForms limit 0 usage.variants).bind fun usages =>
      (parseOptions sections.options).bind fun records =>
        .ok ⟨usage.binary, usages, records⟩ := by
  rw [compile, hsections]
  simp only [husage]
  rfl

/-- A document in parts is compiled part by part, whatever surrounds its sections.  The
first form of the usage section that cannot be expanded decides.  When there is none, the
options section decides, read as it stands in the document. -/
theorem compile_parts (parts : Parts) {document : String}
    (hlines : Text.lines document.toList = parts.lines) (hreturn : '\r' ∉ document.toList)
    {usage : Usage} (husage : Usage.parse parts.usage = .ok usage) (limit : Option Nat) :
    (∀ i g cause, usage.variants[i]? = some g → g.expand limit = .error cause →
      (∀ g' ∈ usage.variants.take i, ∃ variants, g'.expand limit = .ok variants) →
        compile limit document = .error (.grammar i cause)) ∧
    ((∀ g ∈ usage.variants, ∃ variants, g.expand limit = .ok variants) →
      (∀ failure, OptionRecord.parse parts.optionText = .error failure →
        compile limit document = .error (.parse failure)) ∧
      ∀ records, OptionRecord.parse parts.optionText = .ok records →
        ∃ usages, compile limit document = .ok ⟨usage.binary, usages, records⟩ ∧
          usages.map CompiledUsage.source = usage.variants ∧
            ∀ u ∈ usages, u.source.expand limit = .ok u.variants) := by
  have hcompile : compile limit document = (expandForms limit 0 usage.variants).bind fun usages =>
      ((OptionRecord.parse parts.optionText).mapError CompileError.parse).bind fun records =>
        .ok ⟨usage.binary, usages, records⟩ := by
    have hfree : ∀ line ∈ parts.lines, '\r' ∉ line := by
      rw [← hlines]
      exact fun line hline hmem => hreturn (mem_of_mem_lines hline _ hmem)
    have hfreeUsage : ∀ line ∈ Text.lines parts.usage.toList, '\r' ∉ line := fun line hline =>
      hfree line (by simp [Parts.lines, hline])
    have hsections := parts.ofLines?_parts
    rw [← hlines] at hsections
    exact compile_of_sections hsections
      (parse_trimmed husage parts.usage_filled hfreeUsage) limit
  rw [hcompile]
  constructor
  · intro i g cause hget hcause hearlier
    have hforms := expandForms_error 0 hget hcause hearlier
    rw [Nat.zero_add] at hforms
    rw [hforms]
    rfl
  · intro hall
    obtain ⟨usages, hforms, hsources, hvariants⟩ := expandForms_ok 0 hall
    rw [hforms]
    constructor
    · intro failure hfailure
      rw [hfailure]
      rfl
    · intro records hrecords
      rw [hrecords]
      exact ⟨usages, rfl, hsources, hvariants⟩

/-- Two forms, and two options with a blank line between them.  A line that looks like an
option stands before the usage section, and one at the margin behind the options. -/
def listerParts : Parts where
  before := ["-x  Not here.".toList]
  usage := "  lister [-v] \n\tlister FILE\t"
  gap := " ".toList
  first := "  -v  Verbose.".toList
  more := ["".toList, "--all  All.".toList]
  padding := ["\t".toList]
  after := ["See also.".toList]
  before_header := by decide
  usage_filled := by decide
  gap_blank := by decide
  first_defines := by decide
  more_stays := by
    intro line hline
    simp only [List.mem_cons, List.not_mem_nil, or_false] at hline
    rcases hline with rfl | rfl
    · exact Or.inl rfl
    · exact Or.inr (Or.inr rfl)
  last_filled := by decide
  padding_blank := by decide
  after_leaves := by
    rintro line ⟨⟩
    refine ⟨by decide, ?_, by decide⟩
    rintro c ⟨⟩
    decide

def listerDocument : String :=
  "-x  Not here.\nUsage:\n  lister [-v] \n\tlister FILE\t\n \n  -v  Verbose.\n\n" ++
    "--all  All.\n\t\nSee also.\n"

theorem compile_lister :
    compile (some 1) listerDocument =
        .error (.grammar 0 (.tooManyVariants 1)) ∧
      ∃ usages, compile none listerDocument =
        .ok ⟨"lister", usages, [⟨["-v"], none, 2, ["Verbose.", ""], 1⟩,
          ⟨["--all"], none, 0, ["All."], 3⟩]⟩ ∧
        usages.map CompiledUsage.source = [⟨[.opening .optional none, .option "-v" none,
          .closing .optional none]⟩, ⟨[.positional "FILE"]⟩] := by
  have hlines : Text.lines listerDocument.toList = listerParts.lines := by decide +kernel
  have hreturn : '\r' ∉ listerDocument.toList := by decide +kernel
  have husage : Usage.parse listerParts.usage = .ok ⟨"lister",
      [⟨[.opening .optional none, .option "-v" none, .closing .optional none]⟩,
        ⟨[.positional "FILE"]⟩]⟩ := by
    with_unfolding_all rfl
  have hcompile := compile_parts listerParts hlines hreturn husage
  constructor
  · refine (hcompile (some 1)).1 0 _ _ rfl ?_ (by simp)
    with_unfolding_all rfl
  · have hall : ∀ g ∈ [(⟨[.opening .optional none, .option "-v" none,
        .closing .optional none]⟩ : Grammar), ⟨[.positional "FILE"]⟩],
        ∃ variants, g.expand none = .ok variants := by
      intro g hg
      simp only [List.mem_cons, List.not_mem_nil, or_false] at hg
      rcases hg with rfl | rfl
      · exact ⟨[⟨[]⟩, ⟨[.option "-v" none]⟩], by with_unfolding_all rfl⟩
      · exact ⟨[⟨[.positional "FILE"]⟩], by with_unfolding_all rfl⟩
    obtain ⟨usages, hok, hsources, _⟩ := ((hcompile none).2 hall).2 _ (by
      with_unfolding_all rfl)
    exact ⟨usages, hok, hsources⟩

end Synopsis.Help
