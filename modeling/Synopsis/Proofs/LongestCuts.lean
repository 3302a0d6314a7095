import Synopsis.Proofs.Patterns

/-!
# The longest cut

What a recogniser takes is said here without looking at how it goes on from character to
character: `Longest P s` is the longest cut of the text `s` for which `P` holds, and no cut where
`P` holds for none.

* An option name is a piece for which `IsOptionName` holds.
* A capitalised placeholder is a piece of capitals, digits, underscores and hyphens that starts
  with a capital (`IsCapitalised`) and ends at a word boundary (`IsBoundary`).
* A word is made of word parts and dots, with a word part on either side of each dot (`IsWord`).

`capitalTail?` and `wordTail` take a rest of such a piece, so `longest_capitalTail` and
`longest_wordTail` are about a piece whose first character is known; the induction is on the text,
and `Cut.isOf_cons_iff` tells the cuts of a longer text from those of its tail.
-/

namespace Synopsis

namespace Lexeme

open Text

/-! ## Cuts of a longer text -/

theorem Cut.isOf_cons_iff {c : Char} {s : List Char} {cut : Cut} :
    cut.IsOf (c :: s) ↔ cut = ⟨[], c :: s⟩ ∨ ∃ tail : Cut, tail.IsOf s ∧ cut = tail.after [c] := by
  obtain ⟨taken, rest⟩ := cut
  constructor
  · intro h
    cases taken with
    | nil => exact .inl (congrArg (Cut.mk []) h)
    | cons d taken =>
      obtain ⟨rfl, hs⟩ := List.cons.inj h
      exact .inr ⟨⟨taken, rest⟩, hs, rfl⟩
  · rintro (hempty | ⟨tail, htail, hcut⟩)
    · rw [hempty]
      rfl
    · rw [hcut]
      exact htail.after [c]

theorem Cut.isOf_nil_iff {cut : Cut} : cut.IsOf [] ↔ cut = ⟨[], []⟩ := by
  obtain ⟨taken, rest⟩ := cut
  simp [IsOf]

/-- The longest cut of `s` for which `P` holds, or `none` where it holds for no cut. -/
def Longest (P : Cut → Prop) (s : List Char) : Option Cut → Prop
  | some found =>
    found.IsOf s ∧ P found ∧
      ∀ other : Cut, other.IsOf s → P other → other.taken.length ≤ found.taken.length
  | none => ∀ other : Cut, other.IsOf s → ¬P other

namespace Longest

variable {P Q : Cut → Prop} {c : Char} {s : List Char} {found : Cut}

theorem of_nil (h : P ⟨[], []⟩) : Longest P [] (some ⟨[], []⟩) := by
  refine ⟨rfl, h, fun other hother _ => ?_⟩
  exact Nat.le_of_eq (congrArg (·.taken.length) (Cut.isOf_nil_iff.1 hother))

theorem none_of_nil (h : ¬P ⟨[], []⟩) : Longest P [] none := by
  intro other hother hP
  rw [Cut.isOf_nil_iff.1 hother] at hP
  exact h hP

/-- The longest cut of the tail, with the first character before it. -/
theorem behind (hP : ∀ cut, P (cut.after [c]) ↔ Q cut) (h : Longest Q s (some found)) :
    Longest P (c :: s) (some (found.after [c])) := by
  obtain ⟨hs, hfound, hlongest⟩ := h
  refine ⟨hs.after [c], (hP found).2 hfound, fun other hother hPother => ?_⟩
  rcases Cut.isOf_cons_iff.1 hother with rfl | ⟨tail, htail, rfl⟩
  · exact Nat.zero_le _
  · exact Nat.succ_le_succ (hlongest tail htail ((hP tail).1 hPother))

/-- Nothing of the tail will do, and to take nothing does. -/
theorem here (hP : ∀ cut, P (cut.after [c]) → Q cut) (h : Longest Q s none)
    (hempty : P ⟨[], c :: s⟩) : Longest P (c :: s) (some ⟨[], c :: s⟩) := by
  refine ⟨rfl, hempty, fun other hother hPother => ?_⟩
  rcases Cut.isOf_cons_iff.1 hother with rfl | ⟨tail, htail, rfl⟩
  · exact Nat.le_refl _
  · exact absurd (hP tail hPother) (h tail htail)

/-- Nothing of the tail will do, and to take nothing does not either. -/
theorem nowhere (hP : ∀ cut, P (cut.after [c]) → Q cut) (h : Longest Q s none)
    (hempty : ¬P ⟨[], c :: s⟩) : Longest P (c :: s) none := by
  intro other hother hPother
  rcases Cut.isOf_cons_iff.1 hother with rfl | ⟨tail, htail, rfl⟩
  · exact hempty hPother
  · exact h tail htail (hP tail hPother)

/-- Where to take nothing will not do, all is decided by the tail. -/
theorem cons {answer : Option Cut} (hP : ∀ cut, P (cut.after [c]) ↔ Q cut)
    (hempty : ¬P ⟨[], c :: s⟩) (h : Longest Q s answer) :
    Longest P (c :: s) (answer.map (.after [c])) := by
  cases answer with
  | some found => exact h.behind hP
  | none => exact h.nowhere (fun cut => (hP cut).1) hempty

/-- The longest cut of a wider kind is the longest of a narrower kind that it belongs to. -/
theorem narrow (hP : ∀ cut, P cut → Q cut) (hfound : P found) (h : Longest Q s (some found)) :
    Longest P s (some found) :=
  ⟨h.1, hfound, fun other hother hPother => h.2.2 other hother (hP other hPother)⟩

end Longest

/-! ## Option names -/

/-- Two dashes and option characters, or a dash and an option character that is no dash. -/
inductive IsOptionName : List Char → Prop
  | long {name : List Char} (hname : name ≠ []) (hchars : ∀ c ∈ name, isOptionChar c = true) :
      IsOptionName ('-' :: '-' :: name)
  | short {c : Char} (hc : isOptionChar c = true) (hdash : c ≠ '-') : IsOptionName ['-', c]

/-- A run of a class is the longest piece of that class. -/
theorem longest_run1? (p : Char → Bool) (s : List Char) :
    Longest (fun cut => cut.taken ≠ [] ∧ ∀ c ∈ cut.taken, p c = true) s (Cut.run1? p s) := by
  have hlength : ∀ other : Cut, other.IsOf s → (∀ c ∈ other.taken, p c = true) →
      other.taken.length ≤ (s.takeWhile p).length := by
    rintro ⟨taken, rest⟩ rfl hchars
    rw [List.takeWhile_append_of_pos hchars, List.length_append]
    exact Nat.le_add_right _ _
  unfold Cut.run1?
  split
  · rename_i hempty
    rintro other hother ⟨hne, hchars⟩
    have hle := hlength other hother hchars
    rw [List.isEmpty_iff.1 hempty] at hle
    exact hne (List.eq_nil_of_length_eq_zero (Nat.le_zero.1 hle))
  · rename_i hne
    refine ⟨Cut.run_isOf p s, ⟨by simpa [Cut.run] using hne, ?_⟩, fun other hother hP => ?_⟩
    · exact List.all_eq_true.1 List.all_takeWhile
    · exact hlength other hother hP.2

theorem isOptionName_two_dashes {name : List Char} :
    IsOptionName ('-' :: '-' :: name) ↔ name ≠ [] ∧ ∀ c ∈ name, isOptionChar c = true := by
  constructor
  · intro h
    cases h with
    | long hname hchars => exact ⟨hname, hchars⟩
    | short _ hdash => exact absurd rfl hdash
  · rintro ⟨hname, hchars⟩
    exact .long hname hchars

theorem isOptionName_one_dash {c : Char} (hdash : c ≠ '-') {name : List Char} :
    IsOptionName ('-' :: c :: name) ↔ isOptionChar c = true ∧ name = [] := by
  constructor
  · intro h
    cases h with
    | long => exact absurd rfl hdash
    | short hc => exact ⟨hc, rfl⟩
  · rintro ⟨hc, rfl⟩
    exact .short hc hdash

theorem longest_optionName (s : List Char) :
    Longest (fun cut => IsOptionName cut.taken) s (optionName? s) := by
  have hempty : ¬IsOptionName [] := fun h => by cases h
  have hone : ¬IsOptionName ['-'] := fun h => by cases h
  unfold optionName?
  split
  · rename_i s
    have hname := ((longest_run1? isOptionChar s).cons
      (P := fun cut => IsOptionName ('-' :: cut.taken))
      (fun _ => isOptionName_two_dashes) hone).cons
      (P := fun cut => IsOptionName cut.taken) (fun _ => Iff.rfl) hempty
    rwa [Option.map_map] at hname
  · rename_i c s hdash
    have hshort : Longest (fun cut => isOptionChar c = true ∧ cut.taken = []) s
        (if isOptionChar c then some ⟨[], s⟩ else none) := by
      split
      · rename_i hc
        exact ⟨rfl, ⟨hc, rfl⟩, fun other _ hother => Nat.le_of_eq (congrArg _ hother.2)⟩
      · rename_i hc
        exact fun other _ hother => hc hother.1
    have hname := (hshort.cons (P := fun cut => IsOptionName ('-' :: cut.taken))
      (fun _ => isOptionName_one_dash hdash) hone).cons
      (P := fun cut => IsOptionName cut.taken) (fun _ => Iff.rfl) hempty
    split
    · rename_i hc
      rwa [if_pos hc] at hname
    · rename_i hc
      rwa [if_neg hc] at hname
  · rename_i hlong hshort
    rintro ⟨taken, rest⟩ rfl hname
    cases hname with
    | long => exact hlong _ rfl
    | short => exact hshort _ _ rfl

/-! ## Capitalised placeholders -/

/-- A capital, and capitals, digits, underscores and hyphens behind it. -/
def IsCapitalised (piece : List Char) : Prop :=
  ∃ c tail, piece = c :: tail ∧ c.isUpper = true ∧
    ∀ d ∈ tail, d.isUpper = true ∨ d.isDigit = true ∨ d = '_' ∨ d = '-'

/-- Of the characters on the two sides, one is a word character and the other is none.  An end of
the text is none. -/
def IsBoundary (before behind : List Char) : Prop :=
  before.getLast?.any isWordChar ≠ behind.head?.any isWordChar

/-- The piece behind `last` goes on with a placeholder up to a word boundary. -/
def EndsCapitalised (last : Char) (cut : Cut) : Prop :=
  (∀ d ∈ cut.taken, isCapitalPart d = true) ∧ IsBoundary (last :: cut.taken) cut.rest

theorem isCapitalPart_iff {d : Char} :
    isCapitalPart d = true ↔ d.isUpper = true ∨ d.isDigit = true ∨ d = '_' ∨ d = '-' := by
  simp [isCapitalPart, or_assoc]

theorem endsCapitalised_after {last c : Char} {cut : Cut} :
    EndsCapitalised last (cut.after [c]) ↔ isCapitalPart c = true ∧ EndsCapitalised c cut := by
  simp [EndsCapitalised, IsBoundary, Cut.after, and_assoc]

theorem endsCapitalised_empty {last : Char} {s : List Char} :
    EndsCapitalised last ⟨[], s⟩ ↔ (isWordChar last != s.head?.any isWordChar) = true := by
  simp [EndsCapitalised, IsBoundary]

theorem longest_capitalTail (last : Char) (s : List Char) :
    Longest (EndsCapitalised last) s (capitalTail? last s) := by
  induction s generalizing last with
  | nil =>
    have hend : EndsCapitalised last ⟨[], []⟩ ↔ isWordChar last = true := by
      simp [endsCapitalised_empty]
    rw [capitalTail?]
    split
    · rename_i hlast
      exact .of_nil (hend.2 hlast)
    · rename_i hlast
      exact .none_of_nil fun hends => hlast (hend.1 hends)
  | cons c s ih =>
    have htail : Longest (fun cut => isCapitalPart c = true ∧ EndsCapitalised c cut) s
        (if isCapitalPart c then capitalTail? c s else none) := by
      cases hc : isCapitalPart c with
      | true => simpa using ih c
      | false => exact fun _ _ hends => Bool.false_ne_true hends.1
    have hafter : ∀ cut, EndsCapitalised last (cut.after [c]) ↔
        isCapitalPart c = true ∧ EndsCapitalised c cut := fun _ => endsCapitalised_after
    rw [capitalTail?_cons]
    cases hread : (if isCapitalPart c then capitalTail? c s else none) with
    | some tail =>
      rw [hread] at htail
      exact htail.behind hafter
    | none =>
      rw [hread] at htail
      have hhere : EndsCapitalised last ⟨[], c :: s⟩ ↔
          (isWordChar last != isWordChar c) = true := endsCapitalised_empty
      simp only
      split
      · rename_i hboundary
        exact htail.here (fun cut => (hafter cut).1) (hhere.2 hboundary)
      · rename_i hboundary
        exact htail.nowhere (fun cut => (hafter cut).1) fun hends => hboundary (hhere.1 hends)

theorem isCapitalised_cons {c : Char} (hc : c.isUpper = true) (tail : List Char) :
    IsCapitalised (c :: tail) ↔ ∀ d ∈ tail, isCapitalPart d = true := by
  constructor
  · rintro ⟨_, _, hpiece, -, htail⟩ d hd
    obtain ⟨rfl, rfl⟩ := List.cons.inj hpiece
    exact isCapitalPart_iff.2 (htail d hd)
  · intro htail
    exact ⟨c, tail, rfl, hc, fun d hd => isCapitalPart_iff.1 (htail d hd)⟩

theorem not_isCapitalised_nil : ¬IsCapitalised [] := by
  rintro ⟨_, _, hpiece, -⟩
  cases hpiece

theorem longest_placeholder {c : Char} (hc : c.isUpper = true) (s : List Char) :
    Longest (fun cut => IsCapitalised cut.taken ∧ IsBoundary cut.taken cut.rest) (c :: s)
      (placeholder? (c :: s)) := by
  have hangle : c ≠ '<' := by
    rintro rfl
    cases hc
  have hafter : ∀ cut : Cut, (IsCapitalised (cut.after [c]).taken ∧
      IsBoundary (cut.after [c]).taken (cut.after [c]).rest) ↔ EndsCapitalised c cut :=
    fun cut => and_congr_left' (isCapitalised_cons hc cut.taken)
  rw [placeholder?, bracketed?_of_ne hangle, Option.none_or, capitalised?, if_pos hc]
  exact (longest_capitalTail c s).cons hafter fun h => not_isCapitalised_nil h.1

/-! ## Words -/

/-- Word parts and dots, with a word part on either side of each dot. -/
structure IsWord (piece : List Char) : Prop where
  ne_nil : piece ≠ []
  chars : ∀ c ∈ piece, isWordPart c = true ∨ c = '.'
  dots : ∀ before behind, piece = before ++ '.' :: behind →
    (∃ c ∈ before.getLast?, isWordPart c = true) ∧ ∃ c ∈ behind.head?, isWordPart c = true

theorem IsWord.head {c : Char} {tail : List Char} (h : IsWord (c :: tail)) :
    isWordPart c = true := by
  rcases h.chars c List.mem_cons_self with hc | rfl
  · exact hc
  · obtain ⟨⟨d, hd, -⟩, -⟩ := h.dots [] tail rfl
    cases hd

/-- Behind a word part, a word goes on with word parts and dots, with a word part behind each dot
and no dot before it. -/
theorem isWord_cons_iff {c : Char} (hc : isWordPart c = true) (tail : List Char) :
    IsWord (c :: tail) ↔
      (∀ d ∈ tail, isWordPart d = true ∨ d = '.') ∧
        ∀ before behind, tail = before ++ '.' :: behind →
          (∀ d ∈ before.getLast?, isWordPart d = true) ∧
            ∃ d ∈ behind.head?, isWordPart d = true := by
  constructor
  · intro h
    refine ⟨fun d hd => h.chars d (List.mem_cons_of_mem c hd), fun before behind htail => ?_⟩
    obtain ⟨⟨d, hd, hpart⟩, hbehind⟩ := h.dots (c :: before) behind (congrArg (c :: ·) htail)
    refine ⟨fun e he => ?_, hbehind⟩
    have hsame : some e = some d := by
      rw [← Option.mem_def.1 hd, List.getLast?_cons, Option.mem_def.1 he]
      rfl
    rwa [Option.some.inj hsame]
  · rintro ⟨hchars, hdots⟩
    refine ⟨by simp, fun d hd => ?_, fun before behind hpiece => ?_⟩
    · rcases List.mem_cons.1 hd with rfl | hd
      · exact .inl hc
      · exact hchars d hd
    · cases before with
      | nil =>
        obtain ⟨rfl, -⟩ := List.cons.inj hpiece
        cases hc
      | cons d before =>
        obtain ⟨rfl, htail⟩ := List.cons.inj hpiece
        obtain ⟨hbefore, hbehind⟩ := hdots before behind htail
        refine ⟨?_, hbehind⟩
        cases hlast : before.getLast? with
        | none => exact ⟨c, by simp [List.getLast?_cons, hlast], hc⟩
        | some e => exact ⟨e, by simp [List.getLast?_cons, hlast], hbefore e hlast⟩

theorem isWord_singleton {c : Char} (hc : isWordPart c = true) : IsWord [c] := by
  rw [isWord_cons_iff hc]
  simp

theorem isWord_behind_part {c d : Char} (hc : isWordPart c = true) (hd : isWordPart d = true)
    (tail : List Char) : IsWord (c :: d :: tail) ↔ IsWord (d :: tail) := by
  rw [isWord_cons_iff hc]
  constructor
  · rintro ⟨hchars, hdots⟩
    refine ⟨by simp, hchars, fun before behind hpiece => ?_⟩
    obtain ⟨hbefore, hbehind⟩ := hdots before behind hpiece
    refine ⟨?_, hbehind⟩
    cases before with
    | nil =>
      obtain ⟨rfl, -⟩ := List.cons.inj hpiece
      cases hd
    | cons e before => exact ⟨_, List.getLast?_cons, hbefore _ List.getLast?_cons⟩
  · intro h
    refine ⟨h.chars, fun before behind hpiece => ?_⟩
    obtain ⟨⟨e, he, hpart⟩, hbehind⟩ := h.dots before behind hpiece
    refine ⟨fun e' he' => ?_, hbehind⟩
    rwa [Option.mem_unique he' he]

theorem isWord_behind_dot {c : Char} (hc : isWordPart c = true) (tail : List Char) :
    IsWord (c :: '.' :: tail) ↔ IsWord tail := by
  rw [isWord_cons_iff hc]
  constructor
  · rintro ⟨hchars, hdots⟩
    obtain ⟨-, d, hd, -⟩ := hdots [] tail rfl
    have hne : tail ≠ [] := fun hnil => by
      rw [hnil] at hd
      cases hd
    refine ⟨hne, fun e he => hchars e (List.mem_cons_of_mem _ he), fun before behind htail => ?_⟩
    obtain ⟨hbefore, hbehind⟩ := hdots ('.' :: before) behind (congrArg ('.' :: ·) htail)
    refine ⟨?_, hbehind⟩
    -- Two dots in a row would leave the second without a part before it.
    cases hlast : before.getLast? with
    | none => exact absurd (hbefore '.' (by simp [List.getLast?_cons, hlast])) (by decide)
    | some e => exact ⟨e, rfl, hbefore e (by simp [List.getLast?_cons, hlast])⟩
  · intro h
    refine ⟨fun d hd => ?_, fun before behind hpiece => ?_⟩
    · rcases List.mem_cons.1 hd with rfl | hd
      · exact .inr rfl
      · exact h.chars d hd
    · cases before with
      | nil =>
        obtain ⟨-, rfl⟩ := List.cons.inj hpiece
        obtain ⟨d, behind, rfl⟩ := List.exists_cons_of_ne_nil h.ne_nil
        exact ⟨by simp, d, rfl, h.head⟩
      | cons d before =>
        obtain ⟨⟨e, he, hpart⟩, hbehind⟩ := h.dots before behind (List.cons.inj hpiece).2
        refine ⟨fun e' he' => ?_, hbehind⟩
        rw [List.getLast?_cons, Option.mem_def.1 he] at he'
        rwa [← Option.some.inj he']

theorem not_isWord_nil : ¬IsWord [] :=
  fun h => h.ne_nil rfl

theorem no_word {c : Char} (hc : ¬isWordPart c = true) (s : List Char) :
    Longest (fun cut => IsWord cut.taken) (c :: s) none :=
  .nowhere (Q := fun _ => False) (fun _ hword => hc hword.head) (fun _ _ h => h) not_isWord_nil

theorem longest_wordTail {last : Char} (hlast : isWordPart last = true) (s : List Char) :
    Longest (fun cut => IsWord (last :: cut.taken)) s (some (wordTail s)) := by
  fun_induction wordTail s generalizing last with
  | case1 => exact .of_nil (isWord_singleton hlast)
  | case2 c s hc ih =>
    -- Behind the dot a word starts anew, and it goes on as it would behind `last`.
    have hword : ∀ cut : Cut, IsWord cut.taken → IsWord (last :: cut.taken) := by
      rintro ⟨taken, rest⟩ hword
      obtain ⟨d, tail, rfl⟩ := List.exists_cons_of_ne_nil hword.ne_nil
      exact (isWord_behind_part hlast hword.head tail).2 hword
    have hfound : IsWord (wordTail (c :: s)).taken := by
      have hbehind := (ih hlast).2.1
      rw [wordTail_cons hc] at hbehind ⊢
      exact (isWord_behind_part hlast hc _).1 hbehind
    exact ((ih hlast).narrow hword hfound).behind fun cut => isWord_behind_dot hlast cut.taken
  | case3 c s hc =>
    exact (no_word hc s).here (fun cut => (isWord_behind_dot hlast cut.taken).1)
      (isWord_singleton hlast)
  | case4 c s hdot hc ih =>
    exact (ih hc).behind fun cut => isWord_behind_part hlast hc cut.taken
  | case5 c s hdot hc =>
    by_cases hmark : c = '.'
    · subst hmark
      cases s with
      | nil =>
        have hnone : Longest (fun cut => IsWord cut.taken) [] none := .none_of_nil not_isWord_nil
        exact hnone.here (fun cut => (isWord_behind_dot hlast cut.taken).1) (isWord_singleton hlast)
      | cons d s => exact absurd rfl (hdot d s rfl)
    · refine .here (Q := fun _ => False) (fun cut hword => ?_) (fun _ _ h => h)
        (isWord_singleton hlast)
      rcases hword.chars c (by simp [Cut.after]) with hpart | hdot
      · exact hc hpart
      · exact hmark hdot

theorem longest_word (s : List Char) : Longest (fun cut => IsWord cut.taken) s (word? s) := by
  cases s with
  | nil => exact .none_of_nil not_isWord_nil
  | cons c s =>
    rw [word?]
    split
    · rename_i hc
      exact (longest_wordTail hc s).behind fun _ => Iff.rfl
    · rename_i hc
      exact no_word hc s

/-! ## Option uses -/

/-- The text without the equals sign or the space at its start, if there is one. -/
def behindJoint (s : List Char) : List Char :=
  if s.head? = some '=' ∨ s.head? = some ' ' then s.tail else s

theorem behindJoint_eq (s : List Char) : behindJoint s = (valueJoint s).rest := by
  unfold behindJoint
  split
  · rename_i hjoint
    cases s with
    | nil => rfl
    | cons c s => rcases hjoint with hc | hc <;> cases hc <;> rfl
  · rename_i hjoint
    cases s with
    | nil => rfl
    | cons c s =>
      have hne : c ≠ '=' ∧ c ≠ ' ' := by simpa using hjoint
      rw [Token.valueJoint_of_ne hne.1 hne.2]

/-- An option use keeps the whole name, and what stands behind the joint decides on its value. -/
theorem exists_optionUse {s : List Char} {name : Cut} (h : optionName? s = some name) :
    ∃ use, optionUse? s = some use ∧ use.taken ++ use.rest = s ∧ use.name = name.taken ∧
      use.value = (placeholder? (behindJoint name.rest)).map (·.taken) ∧
      (placeholder? (behindJoint name.rest) = none →
        use.taken = name.taken ∧ use.rest = name.rest) ∧
      ∀ value, placeholder? (behindJoint name.rest) = some value → use.rest = value.rest := by
  rw [behindJoint_eq]
  cases hread : placeholder? (valueJoint name.rest).rest with
  | none =>
    have huse := optionUse?_alone h hread
    exact ⟨_, huse, (takes_of_optionUse? huse).1, by simp [OptionUse.taken]⟩
  | some value =>
    have huse := optionUse?_valued h hread
    exact ⟨_, huse, (takes_of_optionUse? huse).1, by simp⟩

end Lexeme

/-! ## The matches of a text -/

open Lexeme

/-- The recognisers answer with the first way to match their patterns.  An option name is the
longest there is, and an option use keeps it: it has a value where a placeholder stands behind the
joint, and is the name alone otherwise.  A placeholder that starts with a capital is the longest
piece of its characters that ends at a word boundary.  A word is the longest piece of word parts
and dots between word parts. -/
theorem matches_are_longest (s : List Char) :
    (Pattern.optionName.match? s = Kind.optionName.match? s ∧
      Pattern.placeholder.match? s = Kind.placeholder.match? s ∧
      Pattern.optionUse.match? s = Kind.optionUse.match? s ∧
      Pattern.word.match? s = Kind.word.match? s) ∧
    (Longest (fun cut => IsOptionName cut.taken) s (optionName? s) ∧
      (optionUse? s = none ↔ optionName? s = none) ∧
      ∀ name, optionName? s = some name →
        ∃ use, optionUse? s = some use ∧ use.taken ++ use.rest = s ∧ use.name = name.taken ∧
          use.value = (placeholder? (behindJoint name.rest)).map (·.taken) ∧
          (placeholder? (behindJoint name.rest) = none →
            use.taken = name.taken ∧ use.rest = name.rest) ∧
          ∀ value, placeholder? (behindJoint name.rest) = some value → use.rest = value.rest) ∧
    (∀ c ∈ s.head?, c.isUpper = true →
      Longest (fun cut => IsCapitalised cut.taken ∧ IsBoundary cut.taken cut.rest) s
        (placeholder? s)) ∧
    Longest (fun cut => IsWord cut.taken) s (word? s) := by
  refine ⟨⟨match?_optionName s, match?_placeholder s, match?_optionUse s, match?_word s⟩,
    ⟨longest_optionName s, Token.optionUse?_eq_none_iff, fun _ => exists_optionUse⟩, ?_,
    longest_word s⟩
  intro c hhead hc
  cases s with
  | nil => cases hhead
  | cons d s =>
    obtain rfl : d = c := by simpa using hhead
    exact longest_placeholder hc s

/-- A lower-case letter behind a hyphen lets a placeholder end with the hyphen, a name is not cut
short for the sake of a value, and a word stops in front of two dots. -/
theorem matches_are_longest_in_rare_texts :
    Longest (fun cut => IsCapitalised cut.taken ∧ IsBoundary cut.taken cut.rest)
        "FILE-x".toList (some ⟨"FILE-".toList, ['x']⟩) ∧
      (∃ use, optionUse? "--outFILE]".toList = some use ∧ use.name = "--outFILE".toList ∧
        use.value = none) ∧
      Longest (fun cut => IsWord cut.taken) "a.b..c".toList
        (some ⟨"a.b".toList, "..c".toList⟩) := by
  have hplaceholder := (matches_are_longest "FILE-x".toList).2.2.1 'F' (by decide) (by decide)
  have hread : placeholder? "FILE-x".toList = some ⟨"FILE-".toList, ['x']⟩ := by
    with_unfolding_all rfl
  rw [hread] at hplaceholder
  have hname : optionName? "--outFILE]".toList = some ⟨"--outFILE".toList, [']']⟩ := by
    with_unfolding_all rfl
  obtain ⟨use, huse, -, hsame, hvalue, -⟩ :=
    (matches_are_longest "--outFILE]".toList).2.1.2.2 _ hname
  have hword := (matches_are_longest "a.b..c".toList).2.2.2
  have hparts : word? "a.b..c".toList = some ⟨"a.b".toList, "..c".toList⟩ := by
    with_unfolding_all rfl
  rw [hparts] at hword
  exact ⟨hplaceholder, ⟨use, huse, hsame, hvalue⟩, hword⟩

end Synopsis
