import Synopsis.Proofs.Forms

/-!
# No text is lost

The text that a token is read from is the token's own text, but for the joint before a value
(`Token.Spells`).  Between the tokens of a line there is nothing but layout.  So a form and the
lines of its block have the same text up to spaces, tabs and equals signs (`condensed`): the step
is one token of a line (`condensed_scan`), and the result for whole sections is
`parse_conserves`.
-/

namespace Synopsis

open Lexeme Text

/-! ## The text of a token -/

/-- The texts that a token can be written as.  The joint before a value can be an equals sign,
a space, or nothing. -/
inductive Token.Spells : Token → List Char → Prop
  | plain {token : Token} (h : ∀ name value, token ≠ .option name (some value)) :
      Spells token token.chars
  | valued (name value : String) {joint : List Char} (h : joint ∈ [['='], [' '], []]) :
      Spells (.option name (some value)) (name.toList ++ joint ++ value.toList)

theorem Lexeme.valueJoint_taken (s : List Char) : (valueJoint s).taken ∈ [['='], [' '], []] := by
  unfold valueJoint
  split <;> simp

/-- An option use without a value has no joint. -/
theorem Lexeme.joint_of_optionUse? {u : List Char} {use : OptionUse}
    (h : optionUse? u = some use) :
    use.joint ∈ [['='], [' '], []] ∧ (use.value = none → use.joint = []) := by
  obtain ⟨name, -, rfl⟩ := Option.map_eq_some_iff.1 h
  simp only
  split
  · refine ⟨valueJoint_taken name.rest, fun hnone => ?_⟩
    cases hnone
  · exact ⟨by simp, fun _ => rfl⟩

/-- What a token takes is one of the texts that it can be written as. -/
theorem Token.Reads.exists_spelled {u r : List Char} {token : Token} (h : Reads u token r) :
    ∃ text, Spells token text ∧ u = text ++ r := by
  cases h with
  | mark h =>
    refine ⟨token.chars, .plain ?_, (readMark?_eq_some_iff.1 h).2⟩
    rintro name value rfl
    cases isElement_of_readMark? h
  | option use _ h =>
    have hu : use.taken ++ use.rest = u := (takes_of_optionUse? h).1
    cases hvalue : use.value with
    | none =>
      have hjoint := (joint_of_optionUse? h).2 hvalue
      refine ⟨use.name, ?_, by simpa [OptionUse.taken, hvalue, hjoint] using hu.symm⟩
      have hplain : Spells (.option (String.ofList use.name) none) _ := .plain (by simp)
      simpa [chars] using hplain
    | some value =>
      refine ⟨use.name ++ use.joint ++ value, ?_,
        by simpa [OptionUse.taken, hvalue] using hu.symm⟩
      have hvalued := Spells.valued (String.ofList use.name) (String.ofList value)
        (joint_of_optionUse? h).1
      simpa using hvalued
  | positional cut _ _ h =>
    have hplain : Spells (.positional (String.ofList cut.taken)) _ := .plain (by simp)
    rw [chars_positional] at hplain
    exact ⟨cut.taken, hplain, (takes_of_placeholder? h).1.symm⟩
  | word cut _ _ _ h =>
    have hplain : Spells (.word (String.ofList cut.taken)) _ := .plain (by simp)
    rw [chars_word] at hplain
    exact ⟨cut.taken, hplain, (takes_of_word? h).1.symm⟩

/-! ## Without spaces, tabs and equals signs -/

namespace Text

/-- The text without its spaces, tabs and equals signs. -/
def condensed (s : List Char) : List Char :=
  s.filter fun c => !isLayout c && c != '='

theorem condensed_append (s t : List Char) : condensed (s ++ t) = condensed s ++ condensed t :=
  List.filter_append ..

theorem IsPad.condensed_eq_nil {pad : List Char} (h : IsPad pad) : condensed pad = [] := by
  rw [condensed, List.filter_eq_nil_iff]
  intro c hc
  simp [h c hc]

theorem condensed_flatMap {α : Type} (xs : List α) (f : α → List Char) :
    condensed (xs.flatMap f) = xs.flatMap fun x => condensed (f x) := by
  rw [condensed, List.filter_flatMap]
  rfl

end Text

theorem Token.Spells.condensed_eq {token : Token} {text : List Char} (h : Spells token text) :
    condensed text = condensed token.chars := by
  cases h with
  | plain => rfl
  | valued name value hjoint =>
    simp only [List.mem_cons, List.not_mem_nil, or_false] at hjoint
    rcases hjoint with rfl | rfl | rfl
    all_goals simp [chars, condensed, isLayout]

namespace Usage

/-- Everything in a line that can be read is in its tokens. -/
theorem condensed_scan {spaced : Bool} {s : List Char} (h : (scan spaced s).unreadable = none) :
    condensed ((scan spaced s).tokens.flatMap (·.token.chars)) = condensed s := by
  induction spaced, s using scan_induction with
  | layout spaced s hrest =>
    rw [scan_of_layout hrest, (indent_rest_eq_nil_iff.1 hrest).condensed_eq_nil]
    rfl
  | unreadable spaced s hrest hread =>
    rw [scan_of_unreadable hrest hread] at h
    cases h
  | read spaced s token rest hread ih =>
    rw [scan_of_read spaced hread] at h ⊢
    have hs : (indent s).taken ++ (indent s).rest = s := Cut.run_isOf _ s
    obtain ⟨text, hspells, htext⟩ := (Token.read?_eq_some_iff.1 hread).exists_spelled
    rw [List.flatMap_cons, condensed_append, ih h, ← hspells.condensed_eq, ← condensed_append,
      ← htext]
    conv => rhs; rw [← hs, condensed_append, (indent_taken_isPad s).condensed_eq_nil]
    rfl

/-- Separators are spaces, so a form has the text of its tokens. -/
theorem condensed_laid (previous : Option Token) (xs : List ScannedToken) :
    condensed ((laid previous xs).flatMap Token.chars) =
      condensed (xs.flatMap (·.token.chars)) := by
  have hseparator : condensed (Token.chars .separator) = [] := rfl
  induction xs generalizing previous with
  | nil => rfl
  | cons x xs ih =>
    rw [laid, List.flatMap_append, condensed_append, ih, List.flatMap_cons, condensed_append]
    congr 1
    unfold laidOne
    split <;> simp [condensed_append, hseparator]

theorem condensed_form {block : List Part} (h : Accepted block) :
    condensed (form block).text.toList = condensed (block.flatMap Part.tail) := by
  have hpart : ∀ part ∈ block,
      condensed (part.scan.tokens.flatMap (·.token.chars)) = condensed part.tail :=
    fun part hpart => condensed_scan (h.readable part hpart)
  have hchars : (form block).text.toList =
      (laid none (block.flatMap (·.scan.tokens))).flatMap Token.chars := String.toList_ofList
  rw [hchars, condensed_laid, List.flatMap_assoc, condensed_flatMap, condensed_flatMap,
    List.flatMap_congr hpart]

/-- A section that is read starts with a line that names its program.  It has one form for each
of its blocks, with the text of the block up to spaces, tabs and equals signs.  The tail of a
line is what it has behind its indentation and, where it opens the block, behind the name. -/
theorem parse_conserves {text : String} {usage : Usage} (h : parse text = .ok usage) :
    (∃ first later, filled (Text.lines text.toList) = first :: later ∧
        startName? first = some usage.binary.toList) ∧
      usage.variants.map (fun g => condensed g.text.toList) =
        (blocksAt (some usage.binary.toList) (filled (Text.lines text.toList))).map fun block =>
          condensed (block.flatMap Part.tail) := by
  obtain ⟨hfirst, hforms, hblocks, haccepted⟩ := forms_of_parse h
  refine ⟨hfirst, ?_⟩
  rw [hforms, ← hblocks, List.map_map]
  exact List.map_congr_left fun block hblock => condensed_form (haccepted block hblock)

/-- Two joints are written as equals signs, and the blanks in a value stay.  The first block
goes on behind a line of layout. -/
theorem parse_conserves_joints :
    parse "p -o X [<in file>|\n\n\t  q]...\n p --n N --m=M" =
        .ok ⟨"p", [⟨[.option "-o" (some "X"), .separator, .opening .optional none,
            .positional "<in file>", .bar none none, .word "q", .closing .optional none,
            .ellipsis]⟩,
          ⟨[.option "--n" (some "N"), .separator, .option "--m" (some "M")]⟩]⟩ ∧
      ["-oX[<infile>|q]...".toList, "--nN--mM".toList] =
        (blocksAt (some ['p']) (filled (Text.lines
          "p -o X [<in file>|\n\n\t  q]...\n p --n N --m=M".toList))).map fun block =>
            condensed (block.flatMap Part.tail) := by
  have hread : parse "p -o X [<in file>|\n\n\t  q]...\n p --n N --m=M" =
      .ok ⟨"p", [⟨[.option "-o" (some "X"), .separator, .opening .optional none,
          .positional "<in file>", .bar none none, .word "q", .closing .optional none,
          .ellipsis]⟩,
        ⟨[.option "--n" (some "N"), .separator, .option "--m" (some "M")]⟩]⟩ := by
    with_unfolding_all rfl
  exact ⟨hread, (parse_conserves hread).2⟩

end Usage

end Synopsis
