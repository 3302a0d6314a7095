import Synopsis.Proofs.Headings

/-!
# Lines that define an option

What is read at the start of an options line is what the line `Defines`: the names, one option
use behind the other (`Uses`), and what stands behind the last of them (`Trailing`).  Where a gap
sets a description off, the description has a column of its own.  A line has one such column at
most (`Defines.column_unique`), and the heading that is read of it agrees
(`defines_of_readHeading`).
-/

namespace Synopsis

open Lexeme Text

namespace OptionRecord

/-! ## Names and what is behind them -/

/-- The text starts with these option uses, one behind the other.  `rest` stands behind the
last of them, where no separator leads on to another name. -/
inductive Uses : List Char → List OptionUse → List Char → Prop
  | last {s : List Char} {use : OptionUse} (huse : optionUse? s = some use)
      (hlast : ∀ cut, nameSeparator? use.rest = some cut → optionName? cut.rest = none) :
      Uses s [use] use.rest
  | behind {s rest : List Char} {use : OptionUse} {cut : Cut} {uses : List OptionUse}
      (huse : optionUse? s = some use) (hseparator : nameSeparator? use.rest = some cut)
      (hlater : Uses cut.rest uses rest) : Uses s (use :: uses) rest

/-- What stands behind the last name of a line: the gap before a description, the end of the
line, or a separator that no name follows.  The flag is set for a gap, and the last text is
what the line has of the description.  A gap at the end of the line is one before an empty
description. -/
inductive Trailing : List Char → Bool → List Char → Prop
  | gap {rest : List Char} {cut : Cut} (hgap : descriptionSeparator? rest = some cut) :
      Trailing rest true cut.rest
  | lineEnd {rest : List Char} {cut : Cut} (hgap : descriptionSeparator? rest = none)
      (hend : lineEnd? rest = some cut) : Trailing rest false cut.rest
  | separator {rest : List Char} {cut : Cut} (hgap : descriptionSeparator? rest = none)
      (hend : lineEnd? rest = none) (hseparator : nameSeparator? rest = some cut) :
      Trailing rest false cut.rest

/-- What a line says that defines an option: the uses of its names, the column where a gap
sets the description off, if one does, and what the line has of the description. -/
inductive Defines (line : List Char) : List OptionUse → Option Nat → List Char → Prop
  | described {uses : List OptionUse} {rest before description : List Char}
      (huses : Uses (indent line).rest uses rest) (htrailing : Trailing rest true description)
      (hline : line = before ++ description) :
      Defines line uses (some (byteWidth before)) description
  | plain {uses : List OptionUse} {rest description : List Char}
      (huses : Uses (indent line).rest uses rest) (htrailing : Trailing rest false description) :
      Defines line uses none description

/-- The last value that is written behind one of the names. -/
def lastValue (uses : List OptionUse) : Option (List Char) :=
  (uses.filterMap (·.value)).getLast?

theorem lastValue_cons (use : OptionUse) (uses : List OptionUse) :
    lastValue (use :: uses) = (lastValue uses).or use.value := by
  unfold lastValue
  cases hvalue : use.value with
  | none => simp [hvalue]
  | some value =>
    rw [List.filterMap_cons_some hvalue, List.getLast?_cons]
    cases (uses.filterMap (·.value)).getLast? <;> rfl

theorem Uses.ne_nil {s rest : List Char} {uses : List OptionUse} (h : Uses s uses rest) :
    uses ≠ [] := by
  cases h <;> simp

theorem Uses.named {s rest : List Char} {uses : List OptionUse} (h : Uses s uses rest) :
    (optionName? s).isSome = true := by
  have hsome : ∀ {use : OptionUse}, optionUse? s = some use → (optionName? s).isSome = true := by
    intro use huse
    rw [Option.isSome_iff_ne_none, Ne, ← Token.optionUse?_eq_none_iff, huse]
    simp
  cases h with
  | last huse _ => exact hsome huse
  | behind huse _ _ => exact hsome huse

theorem Uses.unique {s rest rest' : List Char} {uses uses' : List OptionUse}
    (h : Uses s uses rest) (h' : Uses s uses' rest') : uses = uses' ∧ rest = rest' := by
  induction h generalizing uses' rest' with
  | last huse hlast =>
    cases h' with
    | last huse' _ =>
      obtain rfl := Option.some.inj (huse.symm.trans huse')
      exact ⟨rfl, rfl⟩
    | behind huse' hseparator hlater =>
      obtain rfl := Option.some.inj (huse.symm.trans huse')
      have hnamed := hlater.named
      rw [hlast _ hseparator] at hnamed
      cases hnamed
  | behind huse hseparator hlater ih =>
    cases h' with
    | last huse' hlast =>
      obtain rfl := Option.some.inj (huse.symm.trans huse')
      have hnamed := hlater.named
      rw [hlast _ hseparator] at hnamed
      cases hnamed
    | behind huse' hseparator' hlater' =>
      obtain rfl := Option.some.inj (huse.symm.trans huse')
      obtain rfl := Option.some.inj (hseparator.symm.trans hseparator')
      obtain ⟨rfl, rfl⟩ := ih hlater'
      exact ⟨rfl, rfl⟩

theorem Uses.rest_suffix {s rest : List Char} {uses : List OptionUse} (h : Uses s uses rest) :
    rest <:+ s := by
  induction h with
  | last huse _ => exact ⟨_, (takes_of_optionUse? huse).1⟩
  | behind huse hseparator _ ih =>
    have hrest : _ <:+ _ := ⟨_, (takes_of_nameSeparator? hseparator).1⟩
    exact (ih.trans hrest).trans ⟨_, (takes_of_optionUse? huse).1⟩

theorem descriptionSeparator?_isOf {s : List Char} {cut : Cut}
    (h : descriptionSeparator? s = some cut) : cut.IsOf s := by
  unfold descriptionSeparator? at h
  split at h
  · obtain rfl := Option.some.inj h
    exact (Cut.run_isOf (· == ' ') _).after [' ', ' ']
  · obtain rfl := Option.some.inj h
    exact (Cut.run_isOf (· == '\t') _).after ['\t']
  · cases h

theorem Trailing.unique {rest description description' : List Char} {flag flag' : Bool}
    (h : Trailing rest flag description) (h' : Trailing rest flag' description') :
    flag = flag' ∧ description = description' := by
  cases h with
  | gap hgap =>
    cases h' with
    | gap hgap' =>
      obtain rfl := Option.some.inj (hgap.symm.trans hgap')
      exact ⟨rfl, rfl⟩
    | lineEnd hnone _ => cases hgap.symm.trans hnone
    | separator hnone _ _ => cases hgap.symm.trans hnone
  | lineEnd hnone hend =>
    cases h' with
    | gap hgap => cases hgap.symm.trans hnone
    | lineEnd _ hend' =>
      obtain rfl := Option.some.inj (hend.symm.trans hend')
      exact ⟨rfl, rfl⟩
    | separator _ hend' _ => cases hend.symm.trans hend'
  | separator hnone hend hseparator =>
    cases h' with
    | gap hgap => cases hgap.symm.trans hnone
    | lineEnd _ hend' => cases hend'.symm.trans hend
    | separator _ _ hseparator' =>
      obtain rfl := Option.some.inj (hseparator.symm.trans hseparator')
      exact ⟨rfl, rfl⟩

/-- A line has one column at most where its description starts. -/
theorem Defines.column_unique {line description description' : List Char}
    {uses uses' : List OptionUse} {column column' : Option Nat}
    (h : Defines line uses column description) (h' : Defines line uses' column' description') :
    column = column' := by
  have hsame : ∀ {rest rest' d d' : List Char} {us us' : List OptionUse} {flag flag' : Bool},
      Uses (indent line).rest us rest → Uses (indent line).rest us' rest' →
        Trailing rest flag d → Trailing rest' flag' d' → flag = flag' ∧ d = d' := by
    intro rest rest' d d' us us' flag flag' huses huses' ht ht'
    obtain ⟨-, rfl⟩ := huses.unique huses'
    exact ht.unique ht'
  cases h with
  | described huses ht hline =>
    cases h' with
    | described huses' ht' hline' =>
      obtain ⟨-, rfl⟩ := hsame huses huses' ht ht'
      obtain rfl := List.append_cancel_right (hline.symm.trans hline')
      rfl
    | plain huses' ht' => cases (hsame huses huses' ht ht').1
  | plain huses ht =>
    cases h' with
    | described huses' ht' _ => cases (hsame huses huses' ht ht').1
    | plain _ _ => rfl

/-! ## The heading of such a line -/

/-- A name that has a gap or the end of the line behind it is the last. -/
theorem last_of_no_separator {rest : List Char}
    (h : (descriptionSeparator? rest).isSome = true ∨ (lineEnd? rest).isSome = true) :
    ∀ cut, nameSeparator? rest = some cut → optionName? cut.rest = none := by
  intro cut hseparator
  rw [← Token.optionUse?_eq_none_iff]
  cases huse : optionUse? cut.rest with
  | none => rfl
  | some use =>
    obtain ⟨hgap, hend⟩ := no_gap_of_separator hseparator huse
    rw [hgap, hend] at h
    simp at h

/-- What is read at the start of a text that has names. -/
theorem exists_uses_of_readHeading {s : List Char} {heading : Heading}
    (h : readHeading s = .ok heading) (hnamed : (optionName? s).isSome = true) :
    ∃ uses rest, Uses s uses rest ∧ Trailing rest heading.described heading.rest ∧
      heading.names = uses.map (·.name) ∧ heading.value = lastValue uses := by
  generalize hn : s.length = n
  induction n using Nat.strongRecOn generalizing s heading with
  | ind n ih =>
    subst hn
    have hsome : optionUse? s ≠ none := by
      rw [Ne, Token.optionUse?_eq_none_iff]
      exact Option.isSome_iff_ne_none.1 hnamed
    obtain ⟨use, huse⟩ := Option.ne_none_iff_exists'.1 hsome
    have hone : lastValue [use] = use.value := by
      rw [lastValue_cons]
      exact Option.none_or
    cases hgap : descriptionSeparator? use.rest with
    | some cut =>
      obtain rfl := Except.ok.inj ((readHeading_of_gap huse hgap).symm.trans h)
      have hlast := last_of_no_separator (Or.inl (by rw [hgap]; rfl))
      exact ⟨[use], use.rest, .last huse hlast, .gap hgap, rfl, hone.symm⟩
    | none =>
      cases hend : lineEnd? use.rest with
      | some cut =>
        obtain rfl := Except.ok.inj ((readHeading_of_end huse hgap hend).symm.trans h)
        have hlast := last_of_no_separator (Or.inr (by rw [hend]; rfl))
        exact ⟨[use], use.rest, .last huse hlast, .lineEnd hgap hend, rfl, hone.symm⟩
      | none =>
        cases hseparator : nameSeparator? use.rest with
        | none => cases (readHeading_of_stray huse hgap hend hseparator).symm.trans h
        | some cut =>
          rw [readHeading_of_separator huse hgap hend hseparator] at h
          obtain ⟨later, rfl, hlater⟩ := exists_of_map_ok h
          cases hname : optionName? cut.rest with
          | none =>
            -- The separator is the last thing that is read.
            have hnone := readHeading_of_none (Token.optionUse?_eq_none_iff.2 hname)
            obtain rfl := Except.ok.inj (hnone.symm.trans hlater)
            refine ⟨[use], use.rest, .last huse fun cut' hcut' => ?_,
              .separator hgap hend hseparator, rfl, ?_⟩
            · obtain rfl := Option.some.inj (hseparator.symm.trans hcut')
              exact hname
            · exact Option.none_or.trans hone.symm
          | some name =>
            have hlt : cut.rest.length < s.length :=
              Nat.lt_trans (takes_of_nameSeparator? hseparator).rest_length_lt
                (takes_of_optionUse? huse).rest_length_lt
            obtain ⟨uses, rest, huses, htrailing, hnames, hvalue⟩ :=
              ih cut.rest.length hlt hlater (by rw [hname]; rfl) rfl
            refine ⟨use :: uses, rest, .behind huse hseparator huses, htrailing, ?_, ?_⟩
            · rw [Heading.cons, hnames, List.map_cons]
            · rw [lastValue_cons, Heading.cons, hvalue]

theorem Trailing.suffix {rest description : List Char} {flag : Bool}
    (h : Trailing rest flag description) : description <:+ rest := by
  cases h with
  | gap hgap => exact ⟨_, descriptionSeparator?_isOf hgap⟩
  | lineEnd _ hend =>
    unfold lineEnd? at hend
    split at hend
    · obtain rfl := Option.some.inj hend
      exact List.nil_suffix
    · cases hend
  | separator _ _ hseparator => exact ⟨_, (takes_of_nameSeparator? hseparator).1⟩

/-- The heading of a line that starts with a name, and the column that it leaves. -/
theorem defines_of_readHeading {line : List Char} {heading : Heading}
    (h : readHeading (indent line).rest = .ok heading)
    (hnamed : (optionName? (indent line).rest).isSome = true) :
    ∃ uses, heading.names = uses.map (·.name) ∧ heading.value = lastValue uses ∧
      Defines line uses
        (if heading.described then some (byteWidth line - byteWidth heading.rest) else none)
        heading.rest := by
  obtain ⟨uses, rest, huses, htrailing, hnames, hvalue⟩ := exists_uses_of_readHeading h hnamed
  refine ⟨uses, hnames, hvalue, ?_⟩
  cases hdescribed : heading.described with
  | false =>
    rw [hdescribed] at htrailing
    exact .plain huses htrailing
  | true =>
    rw [hdescribed] at htrailing
    have hline : heading.rest <:+ line :=
      (htrailing.suffix.trans huses.rest_suffix).trans ⟨_, Cut.run_isOf _ line⟩
    obtain ⟨before, hbefore⟩ := hline
    have hcolumn : byteWidth line - byteWidth heading.rest = byteWidth before := by
      rw [← hbefore, byteWidth_append, Nat.add_sub_cancel]
    rw [if_pos rfl, hcolumn]
    exact .described huses htrailing hbefore.symm

end OptionRecord

end Synopsis
