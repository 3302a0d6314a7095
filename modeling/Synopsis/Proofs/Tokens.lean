import Synopsis.Usage.Parse

/-!
# How a token is read

`Reads` lists the ways in which `Token.read?` reads a token, with what each of them has
ruled out before.  The tokens of `marks` have one spelling each, so a mark is read
exactly where the text starts with its characters (`readMark?_eq_some_iff`).
-/

namespace Synopsis.Token

open Lexeme

/-! ## Marks -/

/-- The tokens of a line that are no elements. -/
def marks : List Token :=
  [.opening .required none, .opening .optional none, .closing .required none,
    .closing .optional none, .bar none none, .ellipsis]

theorem readMark?_eq_some_iff {u r : List Char} {token : Token} :
    readMark? u = some (token, r) ↔ token ∈ marks ∧ u = token.chars ++ r := by
  constructor
  · intro h
    unfold readMark? at h
    split at h <;> simp only [Option.some.injEq, Prod.mk.injEq, reduceCtorEq] at h
    all_goals
      obtain ⟨rfl, rfl⟩ := h
      exact ⟨by decide, rfl⟩
  · rintro ⟨hmark, rfl⟩
    simp only [marks, List.mem_cons, List.not_mem_nil, or_false] at hmark
    rcases hmark with rfl | rfl | rfl | rfl | rfl | rfl
    all_goals rfl

theorem isElement_of_readMark? {u r : List Char} {token : Token}
    (h : readMark? u = some (token, r)) : token.isElement = false := by
  have hmarks : ∀ token ∈ marks, token.isElement = false := by decide
  exact hmarks token (readMark?_eq_some_iff.1 h).1

/-- A mark is read again in front of any rest. -/
theorem readMark?_append {u r : List Char} {token : Token}
    (h : readMark? u = some (token, r)) (R : List Char) :
    readMark? (token.chars ++ R) = some (token, R) :=
  readMark?_eq_some_iff.2 ⟨(readMark?_eq_some_iff.1 h).1, rfl⟩

theorem readMark?_of_isWordPart {c : Char} (h : isWordPart c = true) (s : List Char) :
    readMark? (c :: s) = none := by
  cases hread : readMark? (c :: s) with
  | none => rfl
  | some read =>
    obtain ⟨hmark, heq⟩ := readMark?_eq_some_iff.1 hread
    generalize read.1 = token at hmark heq
    simp only [marks, List.mem_cons, List.not_mem_nil, or_false] at hmark
    rcases hmark with rfl | rfl | rfl | rfl | rfl | rfl
    all_goals
      obtain ⟨rfl, -⟩ := List.cons.inj heq
      exact absurd h (by decide)

/-! ## Tokens -/

/-- How a token is read at the start of a text. -/
inductive Reads (u : List Char) : Token → List Char → Prop
  | mark {token : Token} {r : List Char} (h : readMark? u = some (token, r)) :
      Reads u token r
  | option (use : OptionUse) (hmark : readMark? u = none) (h : optionUse? u = some use) :
      Reads u (.option (String.ofList use.name) (use.value.map String.ofList)) use.rest
  | positional (cut : Cut) (hmark : readMark? u = none) (hoption : optionUse? u = none)
      (h : placeholder? u = some cut) :
      Reads u (.positional (String.ofList cut.taken)) cut.rest
  | word (cut : Cut) (hmark : readMark? u = none) (hoption : optionUse? u = none)
      (hpositional : placeholder? u = none) (h : word? u = some cut) :
      Reads u (.word (String.ofList cut.taken)) cut.rest

theorem read?_eq_some_iff {u r : List Char} {token : Token} :
    read? u = some (token, r) ↔ Reads u token r := by
  simp only [read?, Option.orElse_eq_orElse, Option.orElse_eq_or, Option.or_eq_some_iff,
    readOption?, readPositional?, readWord?, Option.map_eq_some_iff, Option.map_eq_none_iff]
  constructor
  · rintro (h | ⟨hmark, h⟩)
    · exact .mark h
    rcases h with ⟨use, huse, h⟩ | ⟨hoption, h⟩
    · obtain ⟨rfl, rfl⟩ := Prod.mk.inj h
      exact .option use hmark huse
    rcases h with ⟨cut, hcut, h⟩ | ⟨hpositional, cut, hcut, h⟩
    · obtain ⟨rfl, rfl⟩ := Prod.mk.inj h
      exact .positional cut hmark hoption hcut
    · obtain ⟨rfl, rfl⟩ := Prod.mk.inj h
      exact .word cut hmark hoption hpositional hcut
  · intro h
    cases h with
    | mark h => exact Or.inl h
    | option use hmark h => exact Or.inr ⟨hmark, Or.inl ⟨use, h, rfl⟩⟩
    | positional cut hmark hoption h =>
      exact Or.inr ⟨hmark, Or.inr ⟨hoption, Or.inl ⟨cut, h, rfl⟩⟩⟩
    | word cut hmark hoption hpositional h =>
      exact Or.inr ⟨hmark, Or.inr ⟨hoption, Or.inr ⟨hpositional, cut, h, rfl⟩⟩⟩

theorem chars_word (cs : List Char) : (word (String.ofList cs)).chars = cs :=
  String.toList_ofList

theorem chars_positional (cs : List Char) : (positional (String.ofList cs)).chars = cs :=
  String.toList_ofList

namespace Reads

variable {u r : List Char} {token : Token}

/-- What a token leaves is the end of the text. -/
theorem suffix (h : Reads u token r) : r <:+ u := by
  cases h with
  | mark h => exact ⟨token.chars, (readMark?_eq_some_iff.1 h).2.symm⟩
  | option use _ h => exact ⟨use.taken, (takes_of_optionUse? h).1⟩
  | positional cut _ _ h => exact ⟨cut.taken, (takes_of_placeholder? h).1⟩
  | word cut _ _ _ h => exact ⟨cut.taken, (takes_of_word? h).1⟩

/-- A separator is never read; it is added at a gap. -/
theorem ne_separator (h : Reads u token r) : token ≠ .separator := by
  cases h with
  | mark h =>
    intro heq
    subst heq
    exact absurd (readMark?_eq_some_iff.1 h).1 (by decide)
  | option => simp
  | positional => simp
  | word => simp

theorem exists_use {name : String} {value : Option String}
    (h : Reads u (.option name value) r) :
    ∃ use, optionUse? u = some use ∧ name = String.ofList use.name ∧
      value = use.value.map String.ofList ∧ r = use.rest := by
  cases h with
  | mark h => cases isElement_of_readMark? h
  | option use _ h => exact ⟨use, h, rfl, rfl, rfl⟩

theorem exists_cut {placeholder : String} (h : Reads u (.positional placeholder) r) :
    ∃ cut, placeholder? u = some cut ∧ placeholder = String.ofList cut.taken ∧
      r = cut.rest := by
  cases h with
  | mark h => cases isElement_of_readMark? h
  | positional cut _ _ h => exact ⟨cut, h, rfl, rfl⟩

/-- A character of a token is one of the text, except the equals sign before a value. -/
theorem mem_of_mem_chars (h : Reads u token r) {c : Char} (hc : c ∈ token.chars)
    (hequals : c ≠ '=') : c ∈ u := by
  have hmem : ∀ {cut : Cut}, cut.IsOf u → c ∈ cut.taken → c ∈ u := fun {cut} hcut hc =>
    hcut ▸ List.mem_append_left cut.rest hc
  cases h with
  | mark h =>
    rw [(readMark?_eq_some_iff.1 h).2]
    exact List.mem_append_left r hc
  | option use _ h =>
    apply hmem (takes_of_optionUse? h).1
    show c ∈ use.name ++ use.joint ++ use.value.getD []
    cases hvalue : use.value with
    | none =>
      have hname : c ∈ use.name := by simpa [chars, hvalue] using hc
      simp [hname]
    | some value =>
      have hname : c ∈ use.name ∨ c ∈ value := by simpa [chars, hvalue, hequals] using hc
      rcases hname with hname | hname
      · simp [hname]
      · simp [hname]
  | positional cut _ _ h =>
    rw [chars_positional] at hc
    exact hmem (takes_of_placeholder? h).1 hc
  | word cut _ _ _ h =>
    rw [chars_word] at hc
    exact hmem (takes_of_word? h).1 hc

end Reads

end Synopsis.Token
