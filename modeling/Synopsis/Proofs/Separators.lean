import Mathlib.Data.List.Forall2
import Synopsis.Proofs.Conservation
import Synopsis.Proofs.Flatness

/-!
# Where separators stand

A form has a separator between two tokens exactly when both of them are such that space between
them counts, and when there is space between their texts (`Separated`).

* `Written` says of what tokens a text is made, with the space before each of them.  There is
  one way only to write given tokens that can be read (`Written.unique`).
* `exists_written` finds the tokens of a block in its lines.  The step is one line with anything
  behind it (`written_scan`), where a token that starts a further line stands behind the line
  feed at least.
* `laid` looks at nothing but the tokens and whether there is space before them (`laid_bare`),
  so it can be read off the pieces (`separated_laid`).

`parse_separates` is the result for whole sections.
-/

namespace Synopsis

open Lexeme Text

/-! ## Tokens that are read -/

namespace Token

namespace Reads

variable {u r : List Char} {token : Token}

/-- A token that is read has no links. -/
theorem unlinked_eq (h : Reads u token r) : token.unlinked = token := by
  cases h with
  | mark h =>
    have hmarks : ∀ token ∈ marks, token.unlinked = token := by decide
    exact hmarks token (readMark?_eq_some_iff.1 h).1
  | option => rfl
  | positional => rfl
  | word => rfl

/-- No token that is read starts with a blank. -/
theorem exists_head_of_chars (h : Reads u token r) :
    ∃ c s, token.chars = c :: s ∧ isBlank c = false := by
  cases h with
  | mark h =>
    obtain ⟨hmark, -⟩ := readMark?_eq_some_iff.1 h
    simp only [marks, List.mem_cons, List.not_mem_nil, or_false] at hmark
    rcases hmark with rfl | rfl | rfl | rfl | rfl | rfl
    all_goals exact ⟨_, _, rfl, rfl⟩
  | option use _ h =>
    obtain ⟨s, hs⟩ := exists_dash_of_optionUse? h
    obtain ⟨s', hs'⟩ := exists_chars_of_option use.name (use.value.map String.ofList)
    exact ⟨'-', s ++ s', by rw [hs', hs]; rfl, rfl⟩
  | positional cut _ _ h =>
    obtain ⟨c, s, hs, hc⟩ := exists_head_of_placeholder? h
    refine ⟨c, s, (chars_positional cut.taken).trans hs, ?_⟩
    rcases hc with rfl | hupper
    · rfl
    · exact not_isBlank_of_isWordPart (isWordPart_of_isUpper hupper)
  | word cut _ _ _ h =>
    obtain ⟨c, s, hs, hc⟩ := exists_head_of_word? h
    exact ⟨c, s, (chars_word cut.taken).trans hs, not_isBlank_of_isWordPart hc⟩

/-- However a token is written that is read, it does not start with a blank. -/
theorem exists_head (h : Reads u token r) {text : List Char} (htext : Spells token text) :
    ∃ c s, text = c :: s ∧ isBlank c = false := by
  cases htext with
  | plain => exact h.exists_head_of_chars
  | @valued name value joint _ =>
    obtain ⟨use, huse, rfl, -, -⟩ := h.exists_use
    obtain ⟨s, hs⟩ := exists_dash_of_optionUse? huse
    refine ⟨'-', s ++ joint ++ value.toList, ?_, rfl⟩
    rw [String.toList_ofList, hs]
    rfl

/-- The value of an option does not start like a joint. -/
theorem exists_head_of_value {name value : String} (h : Reads u (.option name (some value)) r) :
    ∃ c s, value.toList = c :: s ∧ c ≠ '=' ∧ c ≠ ' ' := by
  obtain ⟨use, huse, -, hvalue, -⟩ := h.exists_use
  obtain ⟨taken, htaken, rfl⟩ := Option.map_eq_some_iff.1 hvalue.symm
  obtain ⟨name, -, rfl⟩ := Option.map_eq_some_iff.1 huse
  simp only at htaken
  split at htaken
  · rename_i cut hcut
    obtain rfl := Option.some.inj htaken
    obtain ⟨c, s, hs, hc⟩ := exists_head_of_placeholder? hcut
    refine ⟨c, s, String.toList_ofList.trans hs, ?_, ?_⟩
    · rintro rfl
      rcases hc with hc | hc <;> cases hc
    · rintro rfl
      rcases hc with hc | hc <;> cases hc
  · cases htaken

/-- Two texts of one token at the start of the same text are the same. -/
theorem spelled_unique (h : Reads u token r) {text text' rest rest' : List Char}
    (htext : Spells token text) (htext' : Spells token text')
    (hsame : text ++ rest = text' ++ rest') : text = text' := by
  cases htext with
  | plain hplain =>
    cases htext' with
    | plain => rfl
    | valued name value => exact absurd rfl (hplain name value)
  | valued name value hjoint =>
    cases htext' with
    | plain hplain => exact absurd rfl (hplain name value)
    | valued _ _ hjoint' =>
      obtain ⟨c, s, hs, hequals, hspace⟩ := h.exists_head_of_value
      simp only [List.mem_cons, List.not_mem_nil, or_false] at hjoint hjoint'
      rw [hs] at hsame ⊢
      rcases hjoint with rfl | rfl | rfl
      all_goals
        rcases hjoint' with rfl | rfl | rfl
        all_goals
          -- Joints that differ leave different characters behind the name.
          first
            | rfl
            | simp [hequals, hspace, hequals.symm, hspace.symm] at hsame

end Reads

end Token

/-! ## Texts and their tokens -/

namespace Text

/-- A space, a tab or a line feed. -/
def isSpacing (c : Char) : Bool :=
  isLayout c || c == '\n'

/-- Nothing but spaces, tabs and line feeds. -/
def IsGap (gap : List Char) : Prop :=
  ∀ c ∈ gap, isSpacing c = true

theorem IsPad.isGap {pad : List Char} (h : IsPad pad) : IsGap pad := by
  intro c hc
  simp [isSpacing, h c hc]

theorem IsGap.append {s t : List Char} (hs : IsGap s) (ht : IsGap t) : IsGap (s ++ t) := by
  intro c hc
  rcases List.mem_append.1 hc with hc | hc
  · exact hs c hc
  · exact ht c hc

theorem isGap_lineFeed : IsGap ['\n'] := by
  simp [IsGap, isSpacing]

theorem not_isSpacing_of_not_isBlank {c : Char} (h : isBlank c = false) : isSpacing c = false := by
  cases hc : isSpacing c with
  | false => rfl
  | true =>
    rcases Bool.or_eq_true_iff.1 hc with hlayout | hfeed
    · exact absurd (isBlank_of_isLayout hlayout) (by simp [h])
    · obtain rfl : c = '\n' := by simpa using hfeed
      cases h

/-- A text has one gap at its start. -/
theorem IsGap.unique {gap gap' s s' : List Char} {c c' : Char} (h : IsGap gap) (h' : IsGap gap')
    (hc : isBlank c = false) (hc' : isBlank c' = false)
    (hsame : gap ++ c :: s = gap' ++ c' :: s') : gap = gap' ∧ c :: s = c' :: s' := by
  have htake : ∀ {gap s : List Char} {c : Char}, IsGap gap → isBlank c = false →
      (gap ++ c :: s).takeWhile isSpacing = gap := by
    intro gap s c hgap hc
    have hstops := not_isSpacing_of_not_isBlank hc
    rw [List.takeWhile_append_of_pos hgap, List.takeWhile_cons_of_neg (by simp [hstops]),
      List.append_nil]
  have hgaps : gap = gap' := by
    rw [← htake h hc, hsame, htake h' hc']
  subst hgaps
  exact ⟨rfl, List.append_cancel_left hsame⟩

end Text

namespace Usage

/-- A token with the space before it. -/
structure Piece where
  gap : List Char
  token : Token
  deriving DecidableEq, Repr

/-- The text is made of the pieces.  Between the texts of two tokens, before the first and
behind the last, there is only space. -/
inductive Written : List Char → List Piece → Prop
  | done {gap : List Char} (hgap : IsGap gap) : Written gap []
  | piece {gap text rest : List Char} {token : Token} {pieces : List Piece} (hgap : IsGap gap)
      (htext : token.Spells text) (hlater : Written rest pieces) :
      Written (gap ++ (text ++ rest)) (⟨gap, token⟩ :: pieces)

/-- The token can be read. -/
def Readable (token : Token) : Prop :=
  ∃ u r, Token.Reads u token r

theorem Readable.isSeparator_eq {token : Token} (h : Readable token) :
    token.isSeparator = false := by
  obtain ⟨u, r, hreads⟩ := h
  have hne := hreads.ne_separator
  cases token <;> first | rfl | exact absurd rfl hne

/-- There is one way to divide a text into given tokens. -/
theorem Written.unique {s : List Char} {pieces pieces' : List Piece} (h : Written s pieces)
    (h' : Written s pieces') (htokens : pieces.map (·.token) = pieces'.map (·.token))
    (hread : ∀ p ∈ pieces, Readable p.token) : pieces = pieces' := by
  induction h generalizing pieces' with
  | done => exact (List.map_eq_nil_iff.1 htokens.symm).symm
  | @piece gap text rest token pieces hgap htext _ ih =>
    rw [List.forall_mem_cons] at hread
    obtain ⟨u, r, hreads⟩ := hread.1
    generalize hs : gap ++ (text ++ rest) = s at h'
    cases h' with
    | done => cases htokens
    | @piece gap' text' rest' token' pieces' hgap' htext' hlater' =>
      have htoken : token = token' := (List.cons.inj htokens).1
      subst htoken
      obtain ⟨c, t, ht, hc⟩ := hreads.exists_head htext
      obtain ⟨c', t', ht', hc'⟩ := hreads.exists_head htext'
      have hgaps : gap = gap' ∧ text ++ rest = text' ++ rest' := by
        rw [ht, ht'] at hs ⊢
        exact hgap.unique hgap' hc hc' hs
      obtain ⟨rfl, hsame⟩ := hgaps
      obtain rfl := hreads.spelled_unique htext htext' hsame
      obtain rfl := List.append_cancel_left hsame
      rw [ih hlater' (List.cons.inj htokens).2 hread.2]

/-! ## The tokens of a block in its lines -/

/-- The token as it is laid out, whatever is left of the line. -/
def ScannedToken.bare (x : ScannedToken) : ScannedToken :=
  { x with tail := [] }

/-- The piece as a token of a line. -/
def Piece.scanned (p : Piece) : ScannedToken :=
  ⟨p.token, !p.gap.isEmpty, []⟩

/-- The text has these tokens, with as much space before it as there may be. -/
def Supplies (s : List Char) (xs : List ScannedToken) : Prop :=
  ∀ gap, IsGap gap →
    ∃ pieces, Written (gap ++ s) pieces ∧ pieces.map Piece.scanned = xs.map ScannedToken.bare

/-- The tokens of a line are in its text, in front of any text with further tokens. -/
theorem written_scan {spaced : Bool} {s : List Char} (h : (scan spaced s).unreadable = none)
    {rest : List Char} {later : List ScannedToken} (hlater : Supplies rest later)
    {gap : List Char} (hgap : IsGap gap) (hspaced : spaced = !gap.isEmpty) :
    ∃ pieces, Written (gap ++ (s ++ rest)) pieces ∧
      pieces.map Piece.scanned = ((scan spaced s).tokens ++ later).map ScannedToken.bare := by
  induction spaced, s using scan_induction generalizing gap with
  | layout spaced s hrest =>
    rw [scan_of_layout hrest, ← List.append_assoc]
    exact hlater _ (hgap.append (indent_rest_eq_nil_iff.1 hrest).isGap)
  | unreadable spaced s hrest hread =>
    rw [scan_of_unreadable hrest hread] at h
    cases h
  | read spaced s token rest' hread ih =>
    rw [scan_of_read spaced hread] at h ⊢
    have hs : (indent s).taken ++ (indent s).rest = s := Cut.run_isOf _ s
    obtain ⟨text, htext, hsplit⟩ := (Token.read?_eq_some_iff.1 hread).exists_spelled
    obtain ⟨pieces, hwritten, hpieces⟩ := @ih h [] (by simp [IsGap]) rfl
    have hpiece := Written.piece (hgap.append (indent_taken_isPad s).isGap) htext hwritten
    refine ⟨⟨gap ++ (indent s).taken, token⟩ :: pieces, ?_, ?_⟩
    · have htext : gap ++ (s ++ rest) =
          gap ++ (indent s).taken ++ (text ++ ([] ++ (rest' ++ rest))) := by
        conv => lhs; rw [← hs, hsplit]
        simp
      rw [htext]
      exact hpiece
    · have hgaps : (!(gap ++ (indent s).taken).isEmpty) =
          (spaced || !(indent s).taken.isEmpty) := by
        rw [hspaced]
        cases gap <;> rfl
      rw [List.map_cons, hpieces, List.cons_append, List.map_cons]
      simp only [Piece.scanned, ScannedToken.bare, hgaps]

theorem supplies_further {parts : List Part} (hspaced : ∀ part ∈ parts, part.spaced = true)
    (hread : ∀ part ∈ parts, part.scan.unreadable = none) :
    Supplies (parts.flatMap fun part => '\n' :: part.tail)
      (parts.flatMap (·.scan.tokens)) := by
  induction parts with
  | nil => exact fun gap hgap => ⟨[], by simpa using .done hgap, rfl⟩
  | cons part more ih =>
    rw [List.forall_mem_cons] at hspaced hread
    intro gap hgap
    have hline := written_scan hread.1 (ih hspaced.2 hread.2) (hgap.append isGap_lineFeed)
      (by simp [hspaced.1])
    simpa [Part.scan] using hline

theorem joinLines_eq (first : List Char) (more : List (List Char)) :
    joinLines (first :: more) = first ++ more.flatMap ('\n' :: ·) := by
  induction more generalizing first with
  | nil => simp [joinLines]
  | cons next more ih => rw [joinLines_cons, ih, List.flatMap_cons, List.cons_append]

theorem exists_of_mem_blocksAt {name : Option (List Char)} {lines : List SourceLine}
    {block : List Part} (h : block ∈ blocksAt name lines) :
    ∃ (first : SourceLine) (more : List SourceLine),
      block = .opening first :: more.map .further := by
  fun_induction blocksAt name lines with
  | case1 => cases h
  | case2 first later ih =>
    rcases List.mem_cons.1 h with rfl | h
    · exact ⟨first, _, rfl⟩
    · exact ih h

/-- The text that a form is read from: the lines of its block, behind the name of the program
and their indentation. -/
def blockText (block : List Part) : List Char :=
  joinLines (block.map (·.tail))

theorem exists_written {first : SourceLine} {more : List SourceLine} {block : List Part}
    (hblock : block = .opening first :: more.map .further)
    (hread : ∀ part ∈ block, part.scan.unreadable = none) :
    ∃ pieces, Written (blockText block) pieces ∧
      pieces.map Piece.scanned = (block.flatMap (·.scan.tokens)).map ScannedToken.bare := by
  subst hblock
  rw [List.forall_mem_cons] at hread
  have hspaced : ∀ part ∈ more.map Part.further, part.spaced = true := by simp [Part.further]
  have hfurther := supplies_further hspaced hread.2
  have hline := @written_scan _ _ hread.1 _ _ hfurther [] (by simp [IsGap]) rfl
  rw [blockText, List.map_cons, joinLines_eq, List.flatMap_map, List.flatMap_cons]
  exact hline

/-! ## Separators of what is laid out -/

/-- The tokens that a separator can stand behind. -/
inductive ItemEnd : Token → Prop
  | word (name : String) : ItemEnd (.word name)
  | option (name : String) (value : Option String) : ItemEnd (.option name value)
  | positional (placeholder : String) : ItemEnd (.positional placeholder)
  | ellipsis : ItemEnd .ellipsis
  | closing (kind : GroupKind) (pair : Option Nat) : ItemEnd (.closing kind pair)

/-- The tokens that a separator can stand before. -/
inductive ItemStart : Token → Prop
  | word (name : String) : ItemStart (.word name)
  | option (name : String) (value : Option String) : ItemStart (.option name value)
  | positional (placeholder : String) : ItemStart (.positional placeholder)
  | opening (kind : GroupKind) (pair : Option Nat) : ItemStart (.opening kind pair)

theorem separates_iff {previous next : Token} :
    separates (some previous) next = true ↔ ItemEnd previous ∧ ItemStart next := by
  have hends : endsItem previous = true ↔ ItemEnd previous := by
    constructor
    · intro h
      cases previous <;> first | constructor | cases h
    · intro h
      cases h <;> rfl
  have hstarts : startsItem next = true ↔ ItemStart next := by
    constructor
    · intro h
      cases next <;> first | constructor | cases h
    · intro h
      cases h <;> rfl
  rw [← hends, ← hstarts]
  simp [separates]

/-- The tokens that are no separators. -/
def withoutSeparators (ts : List Token) : List Token :=
  ts.filter (!·.isSeparator)

/-- The separators among the tokens of a text stand exactly where the space in the text
counts. -/
structure Separated (text : List Char) (ts : List Token) : Prop where
  unlinked : ∀ token ∈ ts, token.unlinked = token
  compacted : Compacted ts
  written : ∃ pieces, Written text pieces ∧ pieces.map (·.token) = withoutSeparators ts
  /-- Between two tokens that follow each other in the text there is a separator or nothing,
  depending on the two and on the space between them. -/
  between : ∀ pieces, Written text pieces → pieces.map (·.token) = withoutSeparators ts →
    ∀ before p q after, pieces = before ++ p :: q :: after →
      ∃ front middle back, ts = front ++ p.token :: (middle ++ q.token :: back) ∧
        withoutSeparators front = before.map (·.token) ∧
        withoutSeparators back = after.map (·.token) ∧
        (middle = [] ∨ middle = [.separator]) ∧
        (middle = [.separator] ↔ ItemEnd p.token ∧ ItemStart q.token ∧ q.gap ≠ [])

section Laid

variable {previous : Option Token} {xs : List ScannedToken}

theorem laid_bare (previous : Option Token) (xs : List ScannedToken) :
    laid previous (xs.map ScannedToken.bare) = laid previous xs := by
  induction xs generalizing previous with
  | nil => rfl
  | cons x xs ih =>
    rw [List.map_cons, laid, laid]
    exact congrArg _ (ih (some x.token))

/-- The separator before a token, if there is one. -/
def gapBefore (previous : Option Token) (x : ScannedToken) : List Token :=
  if x.spaced && separates previous x.token then [.separator] else []

theorem laidOne_eq (previous : Option Token) (x : ScannedToken) :
    laidOne previous x = gapBefore previous x ++ [x.token] := by
  unfold laidOne gapBefore
  split <;> rfl

theorem gapBefore_eq (previous : Option Token) (x : ScannedToken) :
    gapBefore previous x = [] ∨ gapBefore previous x = [.separator] := by
  unfold gapBefore
  split <;> simp

theorem gapBefore_iff {previous : Token} {p : Piece} :
    gapBefore (some previous) p.scanned = [.separator] ↔
      ItemEnd previous ∧ ItemStart p.token ∧ p.gap ≠ [] := by
  rw [← and_assoc, ← separates_iff]
  simp [gapBefore, Piece.scanned, and_comm]

theorem withoutSeparators_append (ts us : List Token) :
    withoutSeparators (ts ++ us) = withoutSeparators ts ++ withoutSeparators us :=
  List.filter_append ..

theorem withoutSeparators_gapBefore (previous : Option Token) (x : ScannedToken) :
    withoutSeparators (gapBefore previous x) = [] := by
  rcases gapBefore_eq previous x with h | h
  · rw [h]
    rfl
  · rw [h]
    rfl

theorem withoutSeparators_laid (h : ∀ x ∈ xs, x.token.isSeparator = false) :
    withoutSeparators (laid previous xs) = xs.map (·.token) := by
  induction xs generalizing previous with
  | nil => rfl
  | cons x xs ih =>
    rw [List.forall_mem_cons] at h
    have hone : withoutSeparators [x.token] = [x.token] := by simp [withoutSeparators, h.1]
    rw [laid, laidOne_eq, withoutSeparators_append, withoutSeparators_append,
      withoutSeparators_gapBefore, hone, ih h.2]
    rfl

theorem withoutSeparators_pieces {pieces : List Piece} (h : ∀ p ∈ pieces, Readable p.token) :
    withoutSeparators (laid previous (pieces.map Piece.scanned)) = pieces.map (·.token) := by
  rw [withoutSeparators_laid, List.map_map]
  · rfl
  · intro x hx
    obtain ⟨p, hp, rfl⟩ := List.mem_map.1 hx
    exact (h p hp).isSeparator_eq

theorem compacted_behind {first : Token} (hfirst : first.isSeparator = false)
    (h : ∀ x ∈ xs, x.token.isSeparator = false) :
    Compacted (first :: laid (some first) xs) := by
  induction xs generalizing first with
  | nil => exact Compacted.nil.cons hfirst
  | cons x xs ih =>
    rw [List.forall_mem_cons] at h
    have hlater := ih h.1 h.2
    rw [laid, laidOne_eq, List.append_assoc, List.singleton_append]
    rcases gapBefore_eq (some first) x with hnone | hone
    · rw [hnone]
      exact hlater.cons hfirst
    · rw [hone]
      exact hlater.cons_separator (List.cons_ne_nil _ _) hfirst

/-- What is laid out has no separator at its ends, and none beside another one. -/
theorem compacted_laid (h : ∀ x ∈ xs, x.token.isSeparator = false) :
    Compacted (laid none xs) := by
  cases xs with
  | nil => exact .nil
  | cons x xs =>
    rw [List.forall_mem_cons] at h
    have hfirst : laidOne none x = [x.token] := by simp [laidOne, separates]
    rw [laid, hfirst]
    exact compacted_behind h.1 h.2

/-- A piece is laid out behind the piece before it, with a separator where the space counts. -/
theorem laid_split (before : List Piece) (p q : Piece) (after : List Piece) :
    laid none ((before ++ p :: q :: after).map Piece.scanned) =
      laid none (before.map Piece.scanned) ++
        gapBefore (lastOf none (before.map Piece.scanned)) p.scanned ++
          p.token :: (gapBefore (some p.token) q.scanned ++
            q.token :: laid (some q.token) (after.map Piece.scanned)) := by
  rw [List.map_append, List.map_cons, List.map_cons, laid_append, laid, laid, laidOne_eq,
    laidOne_eq]
  simp [Piece.scanned]

/-- The tokens of a text, laid out, have their separators where the space in the text counts. -/
theorem separated_laid {text : List Char} {pieces : List Piece} (hwritten : Written text pieces)
    (hpieces : pieces.map Piece.scanned = xs.map ScannedToken.bare)
    (hread : ∀ x ∈ xs, Readable x.token) : Separated text (laid none xs) := by
  have hseparator : ∀ x ∈ xs, x.token.isSeparator = false :=
    fun x hx => (hread x hx).isSeparator_eq
  have htokens : pieces.map (·.token) = xs.map (·.token) := by
    have hmap := congrArg (List.map ScannedToken.token) hpieces
    rw [List.map_map, List.map_map] at hmap
    exact hmap
  have hreadable : ∀ p ∈ pieces, Readable p.token := by
    intro p hp
    obtain ⟨x, hx, hsame⟩ := List.mem_map.1 (htokens ▸ List.mem_map_of_mem hp)
    exact hsame ▸ hread x hx
  have hlaid : laid none xs = laid none (pieces.map Piece.scanned) := by
    rw [hpieces, laid_bare]
  refine ⟨?unlinked, compacted_laid hseparator, ?written, ?between⟩
  case unlinked =>
    intro token hmem
    cases hplain : token.isSeparator with
    | true => cases token <;> first | rfl | cases hplain
    | false =>
      have hkept : token ∈ withoutSeparators (laid none xs) :=
        List.mem_filter.2 ⟨hmem, by simp [hplain]⟩
      rw [withoutSeparators_laid hseparator] at hkept
      obtain ⟨x, hx, rfl⟩ := List.mem_map.1 hkept
      obtain ⟨u, r, hreads⟩ := hread x hx
      exact hreads.unlinked_eq
  case written => exact ⟨pieces, hwritten, by rw [htokens, withoutSeparators_laid hseparator]⟩
  case between =>
    intro pieces' hwritten' htokens' before p q after hsplit
    rw [withoutSeparators_laid hseparator, ← htokens] at htokens'
    obtain rfl := hwritten.unique hwritten' htokens'.symm hreadable
    subst hsplit
    have hbefore : ∀ o ∈ before, Readable o.token := fun o ho => hreadable o (by simp [ho])
    have hafter : ∀ o ∈ after, Readable o.token := fun o ho => hreadable o (by simp [ho])
    refine ⟨_, _, _, hlaid.trans (laid_split before p q after), ?_,
      withoutSeparators_pieces hafter, gapBefore_eq _ _, gapBefore_iff⟩
    rw [withoutSeparators_append, withoutSeparators_gapBefore, withoutSeparators_pieces hbefore,
      List.append_nil]

end Laid

/-! ## The whole section -/

theorem readable_of_mem_scan {spaced : Bool} {s : List Char} :
    ∀ x ∈ (scan spaced s).tokens, Readable x.token := by
  induction spaced, s using scan_induction with
  | layout spaced s hrest =>
    rw [scan_of_layout hrest]
    simp
  | unreadable spaced s hrest hread =>
    rw [scan_of_unreadable hrest hread]
    simp
  | read spaced s token rest hread ih =>
    rw [scan_of_read spaced hread, List.forall_mem_cons]
    exact ⟨⟨_, _, Token.read?_eq_some_iff.1 hread⟩, ih⟩

/-- In the forms of a section that is read, separators stand exactly where the space in the
lines of the form counts. -/
theorem parse_separates {text : String} {usage : Usage} (h : parse text = .ok usage) :
    List.Forall₂ (fun g block => Separated (blockText block) g.tokens) usage.variants
      (blocksAt (some usage.binary.toList) (filled (Text.lines text.toList))) := by
  obtain ⟨-, hforms, hblocks, haccepted⟩ := forms_of_parse h
  rw [hforms, ← hblocks, List.forall₂_map_left_iff, List.forall₂_same]
  intro block hblock
  have hread := (haccepted block hblock).readable
  rw [hblocks] at hblock
  obtain ⟨first, more, hopening⟩ := exists_of_mem_blocksAt hblock
  obtain ⟨pieces, hwritten, hpieces⟩ := exists_written hopening hread
  refine separated_laid hwritten hpieces fun x hx => ?_
  obtain ⟨part, -, hx⟩ := List.mem_flatMap.1 hx
  exact readable_of_mem_scan x hx

/-- Brackets without space around them, two spaces that keep a placeholder apart from the option
before it, and a line that ends behind a bar. -/
theorem parse_separates_brackets :
    parse "p a[-o  X]... b|\n c" =
        .ok ⟨"p", [⟨[.word "a", .opening .optional none, .option "-o" none, .separator,
          .positional "X", .closing .optional none, .ellipsis, .separator, .word "b",
          .bar none none, .word "c"]⟩]⟩ ∧
      Separated " a[-o  X]... b|\nc".toList
        [.word "a", .opening .optional none, .option "-o" none, .separator,
          .positional "X", .closing .optional none, .ellipsis, .separator, .word "b",
          .bar none none, .word "c"] := by
  have hread : parse "p a[-o  X]... b|\n c" =
      .ok ⟨"p", [⟨[.word "a", .opening .optional none, .option "-o" none, .separator,
        .positional "X", .closing .optional none, .ellipsis, .separator, .word "b",
        .bar none none, .word "c"]⟩]⟩ := by
    with_unfolding_all rfl
  have hblocks : blocksAt (some ['p']) (filled (Text.lines "p a[-o  X]... b|\n c".toList)) =
      [[.opening ⟨"p a[-o  X]... b|".toList, 1⟩, .further ⟨" c".toList, 2⟩]] := by
    with_unfolding_all rfl
  have hforms := parse_separates hread
  rw [show (⟨"p", _⟩ : Usage).binary.toList = ['p'] from rfl, hblocks] at hforms
  cases hforms with
  | cons hform _ => exact ⟨hread, hform⟩

end Usage

end Synopsis
