import Synopsis.Proofs.Acceptance
import Synopsis.Proofs.Places
import Synopsis.Proofs.Separators

/-!
# Reading a line comes to its end

A text has a token at its start unless it starts in one of three ways (`Tokenless`): with a
blank, with a dot that is not the first of three, or with an angle bracket that opens no
placeholder.  A token takes something of the text, and what it takes is one of its spellings
(`Token.Spells`).

`Turns` is what becomes of a line, one token at a time.  It is finite by the way it is built, so
`turns_scan` says that the reading of every line comes to an end: to that of the line, or to a
text without a token.
-/

namespace Synopsis

open Lexeme Text

/-! ## Texts without a token -/

/-- No token stands at the start of the text. -/
inductive Tokenless : List Char → Prop
  | blank {c : Char} {s : List Char} (hblank : isBlank c = true) : Tokenless (c :: s)
  | dot {s : List Char} (hmark : ∀ rest, '.' :: s ≠ '.' :: '.' :: '.' :: rest) :
      Tokenless ('.' :: s)
  | angle {s : List Char}
      (hopen : ∀ name rest, name ≠ [] → '>' ∉ name → s ≠ name ++ '>' :: rest) :
      Tokenless ('<' :: s)

namespace Lexeme

/-- Angle brackets hold a name that does not close them. -/
theorem bracketed?_eq_none_iff {s : List Char} :
    bracketed? ('<' :: s) = none ↔
      ∀ name rest, name ≠ [] → '>' ∉ name → s ≠ name ++ '>' :: rest := by
  constructor
  · rintro hnone name rest hname hclosed rfl
    have hopen : ∀ c ∈ name, (c != '>') = true := by
      intro c hc
      simpa using ne_of_mem_of_not_mem hc hclosed
    have hstop : ∀ c ∈ ('>' :: rest).head?, (c != '>') = false := by simp
    obtain ⟨htake, hdrop⟩ := span_append hopen hstop
    obtain ⟨c, body, rfl⟩ := List.exists_cons_of_ne_nil hname
    rw [bracketed?] at hnone
    simp only [Cut.run, htake, hdrop] at hnone
    cases hnone
  · intro hopen
    cases hread : bracketed? ('<' :: s) with
    | none => rfl
    | some cut =>
      obtain ⟨c, body, htaken, hbody⟩ := exists_of_bracketed? hread
      have hs : cut.taken ++ cut.rest = '<' :: s := (takes_of_bracketed? hread).1
      rw [htaken, List.cons_append, List.append_assoc] at hs
      have hclosed : '>' ∉ c :: body := by
        rw [← hbody]
        intro hmem
        simpa using List.all_eq_true.1 List.all_takeWhile '>' hmem
      exact absurd (List.cons.inj hs).2.symm (hopen (c :: body) cut.rest (by simp) hclosed)

end Lexeme

namespace Token

theorem read?_eq_none_iff {s : List Char} :
    read? s = none ↔
      readMark? s = none ∧ optionName? s = none ∧ placeholder? s = none ∧ word? s = none := by
  simp [read?, readOption?, readPositional?, readWord?, optionUse?]

/-- Where a word part stands, a word can be read at least. -/
theorem read?_ne_none_of_isWordPart {c : Char} (hc : isWordPart c = true) (s : List Char) :
    read? (c :: s) ≠ none := by
  intro hnone
  have hword := (read?_eq_none_iff.1 hnone).2.2.2
  rw [word?, if_pos hc] at hword
  cases hword

theorem tokenless_of_read? {c : Char} {s : List Char} (h : read? (c :: s) = none) :
    Tokenless (c :: s) := by
  obtain ⟨hmark, -, hplaceholder, -⟩ := read?_eq_none_iff.1 h
  cases hblank : isBlank c with
  | true => exact .blank hblank
  | false =>
    by_cases hdot : c = '.'
    · subst hdot
      refine .dot fun rest hs => ?_
      rw [hs] at hmark
      cases hmark
    · by_cases hangle : c = '<'
      · subst hangle
        exact .angle (bracketed?_eq_none_iff.1 (Option.or_eq_none_iff.1 hplaceholder).1)
      · -- What is left are the brackets and the bar, and the parts of words.
        cases hstructural : Lexeme.isStructural c with
        | true =>
          simp only [Lexeme.isStructural, Bool.or_eq_true, beq_iff_eq] at hstructural
          rcases hstructural with (((rfl | rfl) | rfl) | rfl) | rfl
          all_goals cases hmark
        | false =>
          have hpart : isWordPart c = true := by
            simp [isWordPart, hblank, hstructural, hangle, hdot]
          exact absurd h (read?_ne_none_of_isWordPart hpart s)

theorem read?_of_tokenless {s : List Char} (h : Tokenless s) : read? s = none := by
  have hopening : ∀ {c : Char} {s : List Char}, isWordPart c = false → c ≠ '<' →
      optionName? (c :: s) = none ∧ placeholder? (c :: s) = none ∧ word? (c :: s) = none := by
    intro c s hpart hangle
    refine ⟨optionName?_of_ne ?_ s, ?_, by simp [word?, hpart]⟩
    · rintro rfl
      cases hpart
    · cases hread : placeholder? (c :: s) with
      | none => rfl
      | some cut =>
        obtain ⟨d, body, htaken, hd⟩ := exists_head_of_placeholder? hread
        have hs : cut.taken ++ cut.rest = c :: s := (takes_of_placeholder? hread).1
        rw [htaken] at hs
        obtain rfl := (List.cons.inj hs).1
        rcases hd with rfl | hupper
        · exact absurd rfl hangle
        · rw [isWordPart_of_isUpper hupper] at hpart
          cases hpart
  rw [read?_eq_none_iff]
  cases h with
  | @blank c s hblank =>
    have hpart : isWordPart c = false := by simp [isWordPart, hblank]
    refine ⟨?_, hopening hpart ?_⟩
    · cases hread : readMark? (c :: s) with
      | none => rfl
      | some read =>
        obtain ⟨d, text, htext, hd⟩ := (Reads.mark hread).exists_head_of_chars
        have hs := (readMark?_eq_some_iff.1 hread).2
        rw [htext] at hs
        obtain rfl := (List.cons.inj hs).1
        rw [hblank] at hd
        cases hd
    · rintro rfl
      cases hblank
  | @dot s hmark =>
    refine ⟨?_, hopening (by decide) (by decide)⟩
    cases hread : readMark? ('.' :: s) with
    | none => rfl
    | some read =>
      -- Of the marks only the ellipsis starts with a dot.
      obtain ⟨hmarks, hs⟩ := readMark?_eq_some_iff.1 hread
      generalize read.1 = token at hmarks hs
      simp only [marks, List.mem_cons, List.not_mem_nil, or_false] at hmarks
      rcases hmarks with rfl | rfl | rfl | rfl | rfl | rfl
      case inr.inr.inr.inr.inr => exact absurd hs (hmark read.2)
      all_goals cases hs
  | @angle s hopen =>
    refine ⟨rfl, rfl, ?_, rfl⟩
    rw [placeholder?, bracketed?_eq_none_iff.2 hopen]
    rfl

/-- A token takes one of its spellings. -/
theorem exists_text_of_read? {s rest : List Char} {token : Token}
    (h : read? s = some (token, rest)) :
    ∃ text, text ≠ [] ∧ s = text ++ rest ∧ token.Spells text := by
  have hreads := read?_eq_some_iff.1 h
  obtain ⟨text, hspells, hs⟩ := hreads.exists_spelled
  obtain ⟨c, t, rfl, -⟩ := hreads.exists_head hspells
  exact ⟨c :: t, by simp, hs, hspells⟩

end Token

namespace Usage

/-! ## The tokens of a line -/

/-- What reading a line comes to, one token at a time: the line ends, the text has no token, or
a token takes something of it and reading goes on behind. -/
inductive Turns : Bool → List Char → Scan → Prop
  | lineEnd {spaced : Bool} {s : List Char} (hpad : IsPad s) : Turns spaced s ⟨[], none⟩
  | refused {spaced : Bool} {pad s : List Char} (hpad : IsPad pad)
      (hs : ∀ c ∈ s.head?, isLayout c = false) (htokenless : Tokenless s) :
      Turns spaced (pad ++ s) ⟨[], some s⟩
  | token {spaced : Bool} {pad text rest : List Char} {token : Token} {later : Scan}
      (hpad : IsPad pad) (htext : text ≠ []) (hspells : token.Spells text)
      (hread : Token.read? (text ++ rest) = some (token, rest))
      (hlater : Turns false rest later) :
      Turns spaced (pad ++ (text ++ rest))
        ⟨⟨token, spaced || !pad.isEmpty, text ++ rest⟩ :: later.tokens, later.unreadable⟩

theorem turns_scan (spaced : Bool) (s : List Char) : Turns spaced s (scan spaced s) := by
  induction spaced, s using scan_induction with
  | layout spaced s hrest =>
    rw [scan_of_layout hrest]
    exact .lineEnd (indent_rest_eq_nil_iff.1 hrest)
  | unreadable spaced s hrest hread =>
    rw [scan_of_unreadable hrest hread]
    have hs : (indent s).taken ++ (indent s).rest = s := Cut.run_isOf _ s
    have htokenless : Tokenless (indent s).rest := by
      obtain ⟨c, rest, hc⟩ := List.exists_cons_of_ne_nil hrest
      rw [hc] at hread ⊢
      exact Token.tokenless_of_read? hread
    have hhead : ∀ c ∈ (indent s).rest.head?, isLayout c = false := head?_dropWhile s
    have hturn : Turns spaced ((indent s).taken ++ (indent s).rest) _ :=
      .refused (indent_taken_isPad s) hhead htokenless
    rwa [hs] at hturn
  | read spaced s token rest hread ih =>
    rw [scan_of_read spaced hread]
    have hs : (indent s).taken ++ (indent s).rest = s := Cut.run_isOf _ s
    obtain ⟨text, htext, hsplit, hspells⟩ := Token.exists_text_of_read? hread
    rw [hsplit] at hs hread ⊢
    have hturn : Turns spaced ((indent s).taken ++ (text ++ rest)) _ :=
      .token (indent_taken_isPad s) htext hspells hread ih
    rwa [hs] at hturn

/-- There are no more turns than characters. -/
theorem Turns.length_le {spaced : Bool} {s : List Char} {read : Scan} (h : Turns spaced s read) :
    read.tokens.length ≤ s.length := by
  induction h with
  | lineEnd => exact Nat.zero_le _
  | refused => exact Nat.zero_le _
  | token _ htext _ _ _ ih =>
    have hpos := List.length_pos_iff.2 htext
    simp only [List.length_append, List.length_cons]
    omega

/-! ## The failure -/

section Failure

variable {s : List Char} (hs : ∀ c ∈ s.head?, isLayout c = false)
include hs

theorem indent_rest_of_head : (indent s).rest = s :=
  (span_append (s := []) (by simp) hs).2

/-- A text without a token is a lexical failure, with all of the text left. -/
theorem extend_of_tokenless (h : Tokenless s) (line : SourceLine) (g : Grammar) (spaced : Bool) :
    extend line g spaced s = .error (line.failure .unreadable s) := by
  have hrest := indent_rest_of_head hs
  have hread := Token.read?_of_tokenless h
  have hne : s ≠ [] := by
    rintro rfl
    cases h
  rw [extend, scan_of_unreadable (by rwa [hrest]) (by rwa [hrest]), hrest]
  rfl

/-- A lexical failure that leaves all of a text is that of a text without a token. -/
theorem read?_eq_none_of_extend {line : SourceLine} {g : Grammar} {spaced : Bool}
    (h : extend line g spaced s = .error (line.failure .unreadable s)) :
    Token.read? s = none := by
  have hrest := indent_rest_of_head hs
  have hfirst := failure?_eq_some_iff.2 h
  rw [failure?_extend ⟨line, spaced, s⟩ g] at hfirst
  rcases List.mem_append.1 (List.mem_of_mem_head? hfirst) with hmisplaced | hunread
  · cases kind_of_mem_misplacements hmisplaced
  · obtain ⟨left, hscan, hsame⟩ := Option.map_eq_some_iff.1 (Option.mem_toList.1 hunread)
    obtain rfl : left = s := String.ofList_injective (congrArg ParseFailure.tail hsame)
    cases hread : Token.read? left with
    | none => rfl
    | some read =>
      -- Behind a token there is less left than all of the text.
      obtain ⟨token, rest⟩ := read
      have hlt := Token.length_lt_of_read? hread
      rw [Part.scan, scan_of_read spaced (by rwa [hrest])] at hscan
      have hle := (unreadable_suffix hscan).length_le
      omega

end Failure

end Usage

/-! ## The reading of a line -/

/-- The three ways to start without a token are the only ones, and the failure there leaves all
of the text.  Any other text starts with one of the spellings of the token that is read, which
is not empty.  So a line is read to its end, or up to a text without a token, in no more turns
than it has characters. -/
theorem lexer_advances :
    (∀ s : List Char, s ≠ [] → (∀ c ∈ s.head?, isLayout c = false) →
      (Token.read? s = none ↔ Tokenless s) ∧
      (∀ line g spaced,
        Usage.extend line g spaced s = .error
            ⟨.lexical, "expected option, argument, one of the structural symbols, or none found",
              String.ofList line.text, String.ofList s, line.number⟩ ↔
          Tokenless s) ∧
      ∀ token rest, Token.read? s = some (token, rest) →
        ∃ text, text ≠ [] ∧ s = text ++ rest ∧ token.Spells text) ∧
    ∀ spaced s, Usage.Turns spaced s (Usage.scan spaced s) ∧
      (Usage.scan spaced s).tokens.length ≤ s.length := by
  constructor
  · intro s hne hs
    have hiff : Token.read? s = none ↔ Tokenless s := by
      obtain ⟨c, rest, rfl⟩ := List.exists_cons_of_ne_nil hne
      exact ⟨Token.tokenless_of_read?, Token.read?_of_tokenless⟩
    refine ⟨hiff, fun line g spaced => ⟨?_, ?_⟩, fun _ _ => Token.exists_text_of_read?⟩
    · exact fun hfails => hiff.1 (Usage.read?_eq_none_of_extend hs hfails)
    · exact fun htokenless => Usage.extend_of_tokenless hs htokenless line g spaced
  · exact fun spaced s =>
      ⟨Usage.turns_scan spaced s, (Usage.turns_scan spaced s).length_le⟩

/-- Two dots are no ellipsis, and an option takes its value with the joint before it. -/
theorem lexer_advances_at_dots_and_values :
    Tokenless ['.', '.', 'x'] ∧
      ∃ text, text ≠ [] ∧ "-o FILE]".toList = text ++ [']'] ∧
        (Token.option "-o" (some "FILE")).Spells text := by
  have hdots := lexer_advances.1 ['.', '.', 'x'] (by simp) (by simp [isLayout])
  have hvalue := lexer_advances.1 "-o FILE]".toList (by simp) (by simp [isLayout])
  exact ⟨hdots.1.1 (by decide), hvalue.2.2 _ _ (by with_unfolding_all rfl)⟩

end Synopsis
