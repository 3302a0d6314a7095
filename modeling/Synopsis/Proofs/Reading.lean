import Synopsis.Proofs.Spelling
import Synopsis.Proofs.Tokens

/-!
# Reading a token in front of another rest

`read?_append` says that a token which was read in front of `r` is read again in front
of a text that looks like `r`, when the token is spelled the way `Token.chars` spells
it.  An option without a value needs more than that (`ValueAlike`), because it would
take a placeholder behind it for its value.

`Reads.alike` and `Reads.valueAlike` go the other way: a token, spelled out in front of
texts that look alike, gives texts that look alike.  With these the rest of a line is
compared from its end to its start.
-/

namespace Synopsis.Token

open Lexeme Text

/-! ## The same token of another text -/

/-- No placeholder stands behind the joint of an option in front of the second text
when none stands behind it in front of the first. -/
def ValueAlike (r R : List Char) : Prop :=
  placeholder? (valueJoint r).rest = none → placeholder? (valueJoint R).rest = none

theorem optionUse?_eq_none_iff {u : List Char} : optionUse? u = none ↔ optionName? u = none := by
  simp [optionUse?]

theorem optionUse?_append {u R : List Char} {use : OptionUse} (h : optionUse? u = some use)
    (hR : Alike use.rest R) (hvalue : use.value = none → ValueAlike use.rest R) :
    ∃ joint, optionUse? ((option (String.ofList use.name)
      (use.value.map String.ofList)).chars ++ R) = some ⟨use.name, joint, use.value, R⟩ := by
  obtain ⟨name, hname, huse⟩ := Option.map_eq_some_iff.1 h
  simp only at huse
  cases hplaceholder : placeholder? (valueJoint name.rest).rest with
  | none =>
    rw [hplaceholder] at huse
    subst huse
    have hagain := optionName?_append hname hR.name
    have hnone := hvalue rfl hplaceholder
    refine ⟨[], ?_⟩
    simp only [Option.map_none, chars, String.toList_ofList]
    rw [optionUse?, hagain]
    simp [hnone]
  | some value =>
    rw [hplaceholder] at huse
    subst huse
    have hequals : isOptionChar '=' = false := by decide
    have hagain := optionName?_append (R := '=' :: (value.taken ++ R)) hname
      (fun _ => by simpa using hequals)
    have hsome := placeholder?_append hplaceholder hR.ends
    refine ⟨['='], ?_⟩
    simp only [Option.map_some, chars, String.toList_ofList, List.append_assoc,
      List.cons_append]
    rw [optionUse?, hagain]
    simp [valueJoint, hsome]

theorem exists_name_of_optionUse? {u : List Char} {use : OptionUse}
    (h : optionUse? u = some use) : ∃ name, optionName? u = some name ∧
      name.taken = use.name := by
  obtain ⟨name, hname, rfl⟩ := Option.map_eq_some_iff.1 h
  refine ⟨name, hname, ?_⟩
  simp only
  split <;> rfl

theorem exists_dash_of_optionUse? {u : List Char} {use : OptionUse}
    (h : optionUse? u = some use) : ∃ s, use.name = '-' :: s := by
  obtain ⟨name, hname, hsame⟩ := exists_name_of_optionUse? h
  rw [← hsame]
  exact exists_dash_of_optionName? hname

theorem exists_chars_of_option (name : List Char) (value : Option String) :
    ∃ s, (option (String.ofList name) value).chars = name ++ s := by
  cases value with
  | none => exact ⟨[], by simp [chars]⟩
  | some value => exact ⟨'=' :: value.toList, by simp [chars]⟩

/-- A token is read again in front of a rest that looks alike. -/
theorem read?_append {u r R : List Char} {token : Token} (h : read? u = some (token, r))
    (hR : token.isElement = true → Alike r R)
    (hvalue : ∀ name, token = .option name none → ValueAlike r R) :
    read? (token.chars ++ R) = some (token, R) := by
  rw [read?_eq_some_iff] at h ⊢
  cases h with
  | mark h => exact .mark (readMark?_append h R)
  | option use hmark h =>
    obtain ⟨joint, hagain⟩ := optionUse?_append h (hR rfl) fun hnone =>
      hvalue (String.ofList use.name) (by rw [hnone]; rfl)
    obtain ⟨s, hs⟩ := exists_dash_of_optionUse? h
    obtain ⟨s', hs'⟩ := exists_chars_of_option use.name (use.value.map String.ofList)
    refine .option ⟨use.name, joint, use.value, R⟩ ?_ hagain
    rw [hs', hs]
    exact readMark?_of_isWordPart (by decide) _
  | positional cut hmark hoption h =>
    have hagain := placeholder?_append h (hR rfl).ends
    obtain ⟨c, s, hs, hc⟩ := exists_head_of_placeholder? h
    rw [chars_positional]
    refine .positional ⟨cut.taken, R⟩ ?_ ?_ hagain
    · rw [hs]
      rcases hc with rfl | hupper
      · rfl
      · exact readMark?_of_isWordPart (isWordPart_of_isUpper hupper) _
    · rw [hs, optionUse?_eq_none_iff]
      refine optionName?_of_ne ?_ _
      intro heq
      subst heq
      rcases hc with hc | hc <;> cases hc
  | word cut hmark hoption hpositional h =>
    have hR := hR rfl
    have hrest : wordTail cut.rest = ⟨[], cut.rest⟩ := word?_rest h
    have hagain := word?_append h hR.word
    obtain ⟨c, s, hs, hc⟩ := exists_head_of_word? h
    have hu : cut.taken ++ cut.rest = u := (takes_of_word? h).1
    have hhead := head_of_wordTail (hR.word hrest)
    rw [chars_word]
    refine .word ⟨cut.taken, R⟩ ?_ ?_ ?_ hagain
    · rw [hs]
      exact readMark?_of_isWordPart hc _
    · rw [optionUse?_eq_none_iff] at hoption ⊢
      rw [← hu] at hoption
      refine optionName?_append_eq_none (by simp [hs]) hoption (fun d hd => ?_) fun hd => ?_
      · cases hchar : isOptionChar d with
        | false => rfl
        | true => exact absurd (isWordPart_of_isOptionChar hchar) (by simp [hhead d hd])
      · exact absurd (hhead '-' hd) (by decide)
    · rw [← hu, hs] at hpositional
      rw [hs]
      refine placeholder?_append_eq_none ?_ hpositional hR.noEnd
      intro heq
      subst heq
      exact absurd hc (by decide)

/-! ## Texts that start with a token -/

/-- A mark stops every recogniser, and no value starts with one. -/
theorem edge_of_mem_marks {token : Token} (h : token ∈ marks) (R : List Char) :
    Edge (token.chars ++ R) ∧ (token.chars ++ R).head? ≠ some '<' ∧
      valueJoint (token.chars ++ R) = ⟨[], token.chars ++ R⟩ := by
  simp only [marks, List.mem_cons, List.not_mem_nil, or_false] at h
  rcases h with rfl | rfl | rfl | rfl | rfl | rfl
  all_goals
    refine ⟨?_, by simp [chars], rfl⟩
    first
      | exact edge_of_isStructural (by decide) _
      | exact edge_dots _

theorem capitalTail?_at_boundary {last c : Char} (hlast : isWordChar last = true)
    (hc : isWordChar c = false) (hcapital : isCapitalPart c = false) (s : List Char) :
    capitalTail? last (c :: s) = some ⟨[], c :: s⟩ := by
  rw [capitalTail?_cons]
  simp [hlast, hc, hcapital]

theorem capitalTail?_placeholder {last : Char} (hlast : isWordChar last = true)
    {s : List Char} {cut : Cut} (h : placeholder? s = some cut) :
    capitalTail? last s ≠ none := by
  rcases Option.or_eq_some_iff.1 h with h | ⟨_, h⟩
  · cases s with
    | nil => cases h
    | cons c s =>
      by_cases hc : c = '<'
      · subst hc
        rw [capitalTail?_at_boundary hlast (by decide) (by decide)]
        simp
      · rw [bracketed?] at h
        · cases h
        · intro _ heq
          exact hc (List.cons.inj heq).1
  · cases s with
    | nil => cases h
    | cons c s =>
      rw [capitalised?] at h
      split at h
      · rename_i hupper
        obtain ⟨tail, htail, rfl⟩ := Option.map_eq_some_iff.1 h
        rw [capitalTail?_cons]
        simp [isCapitalPart_of_isUpper hupper, htail]
      · cases h

/-- Whatever joins an option to its value, an equals sign in its place does not end a
placeholder where the joint did not. -/
theorem noEnd_of_value {z : List Char} {value : Cut}
    (h : placeholder? (valueJoint z).rest = some value) (Z : List Char) :
    NoEnd z ('=' :: Z) := by
  intro last hnone
  have hlast : isWordChar last = false := by
    cases hlast : isWordChar last with
    | false => rfl
    | true =>
      unfold valueJoint at h
      split at h
      · rw [capitalTail?_at_boundary hlast (by decide) (by decide)] at hnone
        cases hnone
      · rw [capitalTail?_at_boundary hlast (by decide) (by decide)] at hnone
        cases hnone
      · exact absurd hnone (capitalTail?_placeholder hlast h)
  have hword : isWordChar '=' = false := by decide
  have hcapital : isCapitalPart '=' = false := by decide
  rw [capitalTail?_cons]
  simp [hlast, hword, hcapital]

theorem placeholder?_dash (s : List Char) : placeholder? ('-' :: s) = none := rfl

/-- A token in front of texts that look alike makes texts that look alike. -/
theorem Reads.alike {u r R : List Char} {token : Token} (h : Reads u token r)
    (hR : token.isElement = true → Alike r R) : Alike u (token.chars ++ R) := by
  cases h with
  | mark h =>
    obtain ⟨hmark, rfl⟩ := readMark?_eq_some_iff.1 h
    obtain ⟨hedge, hangle, _⟩ := edge_of_mem_marks hmark R
    refine .of_edges (edge_of_mem_marks hmark r).1 hedge fun _ => ?_
    exact hedge.placeholder?_eq_none hangle
  | option use hmark h =>
    have hR := hR rfl
    obtain ⟨name, hname, huse⟩ := Option.map_eq_some_iff.1 h
    obtain ⟨s, hs⟩ := exists_dash_of_optionName? hname
    have hu : name.taken ++ name.rest = u := (takes_of_optionName? hname).1
    simp only at huse
    rw [← hu, hs]
    cases hvalue : placeholder? (valueJoint name.rest).rest with
    | none =>
      rw [hvalue] at huse
      subst huse
      have halike := Alike.cons (c := '-') (by decide) (hR.noEnd.append s)
        fun _ => placeholder?_dash _
      simpa [chars, hs] using halike
    | some value =>
      rw [hvalue] at huse
      subst huse
      have halike := Alike.cons (c := '-') (by decide)
        ((noEnd_of_value hvalue (value.taken ++ R)).append s) fun _ => placeholder?_dash _
      simpa [chars, hs] using halike
  | positional cut hmark hoption h =>
    have hR := hR rfl
    obtain ⟨c, s, hs, hc⟩ := exists_head_of_placeholder? h
    have hu : cut.taken ++ cut.rest = u := (takes_of_placeholder? h).1
    rw [← hu] at h ⊢
    rw [chars_positional]
    have hnone : placeholder? (cut.taken ++ cut.rest) = none →
        placeholder? (cut.taken ++ R) = none := by
      rw [h]
      exact fun hfalse => by cases hfalse
    rw [hs] at hnone ⊢
    rcases hc with rfl | hupper
    · exact .of_edges (edge_angle _) (edge_angle _) hnone
    · exact .cons (isWordPart_of_isUpper hupper) (hR.noEnd.append s) hnone
  | word cut hmark hoption hpositional h =>
    have hR := hR rfl
    obtain ⟨c, s, hs, hc⟩ := exists_head_of_word? h
    have hu : cut.taken ++ cut.rest = u := (takes_of_word? h).1
    have hangle : c ≠ '<' := by
      intro heq
      subst heq
      exact absurd hc (by decide)
    rw [← hu, chars_word, hs]
    exact .cons hc (hR.noEnd.append s) fun hnone =>
      placeholder?_append_eq_none hangle hnone hR.noEnd

/-- Only a positional token starts with a placeholder. -/
theorem Reads.placeholder?_eq_none {u r R : List Char} {token : Token}
    (h : Reads u token r) (hR : token.isElement = true → Alike r R)
    (hpositional : ∀ p, token ≠ .positional p) :
    placeholder? (token.chars ++ R) = none := by
  cases h with
  | mark h =>
    obtain ⟨hedge, hangle, _⟩ := edge_of_mem_marks (readMark?_eq_some_iff.1 h).1 R
    exact hedge.placeholder?_eq_none hangle
  | option use hmark h =>
    obtain ⟨s, hs⟩ := exists_dash_of_optionUse? h
    obtain ⟨s', hs'⟩ := exists_chars_of_option use.name (use.value.map String.ofList)
    rw [hs', hs]
    exact placeholder?_dash _
  | positional cut => exact absurd rfl (hpositional _)
  | word cut hmark hoption hnone h =>
    have halike := (Reads.word cut hmark hoption hnone h).alike hR
    exact halike.positional hnone

theorem valueJoint_of_ne {c : Char} (hequals : c ≠ '=') (hspace : c ≠ ' ') (s : List Char) :
    valueJoint (c :: s) = ⟨[], c :: s⟩ := by
  rw [valueJoint]
  · intro _ heq
    exact hequals (List.cons.inj heq).1
  · intro _ heq
    exact hspace (List.cons.inj heq).1

/-- What stands directly behind an option is no value of the option when it was none
before. -/
theorem Reads.valueAlike {u r R : List Char} {token : Token} (h : Reads u token r)
    (hR : token.isElement = true → Alike r R) : ValueAlike u (token.chars ++ R) := by
  intro hnone
  cases h with
  | mark h =>
    obtain ⟨hedge, hangle, hjoint⟩ := edge_of_mem_marks (readMark?_eq_some_iff.1 h).1 R
    rw [hjoint]
    exact hedge.placeholder?_eq_none hangle
  | option use hmark h =>
    obtain ⟨s, hs⟩ := exists_dash_of_optionUse? h
    obtain ⟨s', hs'⟩ := exists_chars_of_option use.name (use.value.map String.ofList)
    rw [hs', hs, List.cons_append, List.cons_append,
      valueJoint_of_ne (by decide) (by decide)]
    exact placeholder?_dash _
  | positional cut hmark hoption h =>
    obtain ⟨c, s, hs, hc⟩ := exists_head_of_placeholder? h
    have hu : cut.taken ++ cut.rest = u := (takes_of_placeholder? h).1
    have hjoint : valueJoint u = ⟨[], u⟩ := by
      rw [← hu, hs]
      refine valueJoint_of_ne ?_ ?_ _
      all_goals
        intro heq
        subst heq
        rcases hc with hc | hc <;> cases hc
    rw [hjoint, h] at hnone
    cases hnone
  | word cut hmark hoption hpositional h =>
    have hagain := (Reads.word cut hmark hoption hpositional h).placeholder?_eq_none hR
      (fun p => by simp)
    have hR := hR rfl
    obtain ⟨c, s, hs, hc⟩ := exists_head_of_word? h
    have hu : cut.taken ++ cut.rest = u := (takes_of_word? h).1
    rw [chars_word] at hagain ⊢
    rw [← hu] at hnone
    rw [hs] at hnone hagain ⊢
    by_cases hequals : c = '='
    · -- The joint is the first character of the word.
      subst hequals
      have hnone : placeholder? (s ++ cut.rest) = none := hnone
      show placeholder? (s ++ R) = none
      cases s with
      | nil => exact hR.positional hnone
      | cons d s =>
        have hd : d ≠ '<' := by
          intro heq
          subst heq
          exact angle_not_mem_of_word? h (by simp [hs])
        exact placeholder?_append_eq_none hd hnone hR.noEnd
    · have hspace : c ≠ ' ' := by
        intro heq
        subst heq
        exact absurd hc (by decide)
      rw [List.cons_append, valueJoint_of_ne hequals hspace]
      exact hagain

/-- An option without a value takes a placeholder that stands one space behind it. -/
theorem read?_option_behind_space {u r : List Char} {name : String}
    (h : read? u = some (.option name none, r)) {s : List Char} {cut : Cut}
    (hs : placeholder? s = some cut) :
    read? ((option name none).chars ++ ' ' :: s) =
      some (.option name (some (String.ofList cut.taken)), cut.rest) := by
  obtain ⟨use, huse, rfl, -, -⟩ := (read?_eq_some_iff.1 h).exists_use
  obtain ⟨cut', hname, hsame⟩ := exists_name_of_optionUse? huse
  obtain ⟨n, hn⟩ := exists_dash_of_optionUse? huse
  have hspace : isOptionChar ' ' = false := by decide
  have hagain := optionName?_append (R := ' ' :: s) hname fun _ => by simpa using hspace
  rw [hsame] at hagain
  have hchars : (option (String.ofList use.name) none).chars = use.name :=
    String.toList_ofList
  rw [hchars, read?_eq_some_iff]
  refine .option ⟨use.name, [' '], some cut.taken, cut.rest⟩ ?_ ?_
  · rw [hn]
    exact readMark?_of_isWordPart (by decide) _
  · rw [optionUse?, hagain]
    simp [valueJoint, hs]

end Synopsis.Token
