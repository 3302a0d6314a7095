import Synopsis.Proofs.Ends
import Synopsis.Proofs.Reading
import Synopsis.Proofs.Sections

/-!
# Layout behind a line

Spaces and tabs behind a text change nothing of what is read in it.  A text looks the same
to every recogniser with a pad behind it (`alike_padded`), so each of them takes what it
takes without the pad, and leaves the pad behind the rest (`optionName?_padded`,
`placeholder?_padded`, `word?_padded`, `binaryName?_padded`).  From this follows the same
of a token (`Token.read?_padded`) and of all tokens of a line (`scan_padded`).

The other way round, where everything in a line can be read, all the blanks at its end are
such a pad (`plainEnd_of_scan`).
-/

namespace Synopsis

open Lexeme Text Token

/-- Nothing but spaces and tabs. -/
def Text.IsPad (pad : List Char) : Prop :=
  ∀ c ∈ pad, isLayout c = true

theorem Text.isPad_nil : IsPad [] := by
  simp [IsPad]

theorem Text.IsPad.append {s t : List Char} (hs : IsPad s) (ht : IsPad t) : IsPad (s ++ t) := by
  intro c hc
  rcases List.mem_append.1 hc with hc | hc
  · exact hs c hc
  · exact ht c hc

theorem Text.IsPad.isBlank {pad : List Char} (h : IsPad pad) : ∀ c ∈ pad, isBlank c = true :=
  fun c hc => isBlank_of_isLayout (h c hc)

namespace Lexeme

/-- The cut of the text with more behind it. -/
def Cut.padded (pad : List Char) (cut : Cut) : Cut :=
  ⟨cut.taken, cut.rest ++ pad⟩

/-- The option use in the text with more behind it. -/
def OptionUse.padded (pad : List Char) (use : OptionUse) : OptionUse :=
  ⟨use.name, use.joint, use.value, use.rest ++ pad⟩

/-- A run stops where it stopped when something stands behind it, or when the pad stops
it. -/
theorem run_padded {p : Char → Bool} {s pad : List Char}
    (h : (Cut.run p s).rest ≠ [] ∨ ∀ c ∈ pad.head?, p c = false) :
    Cut.run p (s ++ pad) = (Cut.run p s).padded pad := by
  induction s with
  | nil =>
    have hpad : ∀ c ∈ pad.head?, p c = false := h.resolve_left (by simp [Cut.run])
    cases pad with
    | nil => rfl
    | cons c pad => simp [Cut.run, Cut.padded, hpad c rfl]
  | cons c s ih =>
    cases hc : p c with
    | true =>
      obtain ⟨htaken, hrest⟩ := Cut.mk.inj (ih (by simpa [Cut.run, hc] using h))
      simp [Cut.run, Cut.padded, hc, htaken, hrest]
    | false => simp [Cut.run, Cut.padded, hc]

/-- The name of a program that no directory stands before. -/
theorem binaryName?_of_ne {s : List Char} (hone : ∀ t, s ≠ '.' :: '/' :: t)
    (htwo : ∀ t, s ≠ '.' :: '.' :: '/' :: t) : binaryName? s = baseName? s := by
  rw [binaryName?]
  · exact htwo
  · exact hone

section Recognisers

variable {pad : List Char} (hpad : IsPad pad)

include hpad

/-! ## Texts with a pad look alike -/

theorem edge_of_isPad : Edge pad := by
  cases pad with
  | nil => exact edge_nil
  | cons c pad => exact edge_of_isLayout (hpad c List.mem_cons_self) pad

theorem head_ne_of_isPad {d : Char} (hd : isLayout d = false) : pad.head? ≠ some d := by
  intro hhead
  have hlayout := hpad d (List.mem_of_mem_head? hhead)
  rw [hd] at hlayout
  cases hlayout

theorem noEnd_padded (r : List Char) : NoEnd r (r ++ pad) := by
  have hnil : NoEnd [] pad := by
    intro last hnone
    rw [edge_nil.capitalTail?_eq] at hnone
    rw [(edge_of_isPad hpad).capitalTail?_eq]
    by_cases hword : isWordChar last = true
    · simp [hword] at hnone
    · simp [hword]
  have happend := hnil.append r
  rwa [List.append_nil] at happend

theorem endAlike_padded (r : List Char) : EndAlike r (r ++ pad) := by
  cases r with
  | nil =>
    intro last hend
    rw [edge_nil.capitalTail?_eq] at hend
    show capitalTail? last pad = some ⟨[], pad⟩
    rw [(edge_of_isPad hpad).capitalTail?_eq]
    by_cases hword : isWordChar last = true
    · simp [hword]
    · simp [hword] at hend
  | cons c r => exact (noEnd_padded hpad r).endAlike_cons c

theorem wordTail_stops_padded {r : List Char} (h : wordTail r = ⟨[], r⟩) :
    wordTail (r ++ pad) = ⟨[], r ++ pad⟩ := by
  cases r with
  | nil => exact (edge_of_isPad hpad).word
  | cons c r =>
    have hc : isWordPart c = false := head_of_wordTail h c rfl
    by_cases hdot : c = '.'
    · subst hdot
      have hnext : ∀ d ∈ (r ++ pad).head?, isWordPart d = false := by
        cases r with
        | nil => exact head_of_wordTail (edge_of_isPad hpad).word
        | cons d r =>
          intro e he
          obtain rfl : d = e := by simpa using he
          cases hd : isWordPart d with
          | false => rfl
          | true =>
            rw [wordTail_dot_cons hd] at h
            simp [Cut.after] at h
      show wordTail ('.' :: (r ++ pad)) = _
      cases hr : r ++ pad with
      | nil =>
        obtain ⟨rfl, rfl⟩ := List.append_eq_nil_iff.1 hr
        exact h
      | cons d s =>
        have hd := hnext d (by rw [hr]; rfl)
        rw [wordTail]
        simp [hd, hr]
    · show wordTail (c :: (r ++ pad)) = _
      rw [wordTail]
      · simp [hc]
      · exact fun d s heq => absurd heq hdot

/-- A text that does not end with a blank does not reach into the pad. -/
theorem exists_rest_of_tight {t r u : List Char} (ht : Tight t) (h : t ++ r = u ++ pad) :
    t = [] ∨ ∃ r', u = t ++ r' ∧ r = r' ++ pad := by
  rcases List.append_eq_append_iff.1 h with ⟨r', hu, hr⟩ | ⟨t', hts, hr⟩
  · exact Or.inr ⟨r', hu, hr⟩
  · cases hlast : t'.getLast? with
    | none =>
      obtain rfl := List.getLast?_eq_none_iff.1 hlast
      exact Or.inr ⟨[], by simpa using hts.symm, by simpa using hr.symm⟩
    | some c =>
      have hblank : isBlank c = true :=
        isBlank_of_isLayout (hpad c (hr ▸ List.mem_append_left r (List.mem_of_getLast? hlast)))
      have hend : isBlank c = false := ht c (by rw [hts, List.getLast?_append, hlast]; rfl)
      rw [hblank] at hend
      cases hend

theorem bracketed?_padded_eq_none {s : List Char} (h : bracketed? s = none) :
    bracketed? (s ++ pad) = none := by
  cases hread : bracketed? (s ++ pad) with
  | none => rfl
  | some cut =>
    have hplaceholder : placeholder? (s ++ pad) = some cut := by rw [placeholder?, hread]; rfl
    obtain ⟨hcut, hne⟩ := takes_of_bracketed? hread
    rcases exists_rest_of_tight hpad (tight_of_placeholder? hplaceholder) hcut with
      hnil | ⟨rest, rfl, _⟩
    · exact absurd hnil hne
    · rw [bracketed?_append hread rest] at h
      cases h

theorem placeholder?_padded_eq_none {s : List Char} (h : placeholder? s = none) :
    placeholder? (s ++ pad) = none := by
  cases s with
  | nil =>
    exact (edge_of_isPad hpad).placeholder?_eq_none (head_ne_of_isPad hpad (by decide))
  | cons c s =>
    by_cases hc : c = '<'
    · subst hc
      obtain ⟨hangle, _⟩ := Option.or_eq_none_iff.1 h
      rw [placeholder?, bracketed?_padded_eq_none hpad hangle]
      rfl
    · have hnil : placeholder? (c :: (s ++ [])) = none := by rw [List.append_nil, h]
      exact placeholder?_append_eq_none hc hnil (noEnd_padded hpad [])

/-- A text with a pad behind it looks the same to a recogniser. -/
theorem alike_padded (r : List Char) : Alike r (r ++ pad) where
  noEnd := noEnd_padded hpad r
  ends := endAlike_padded hpad r
  word := wordTail_stops_padded hpad
  name h := by
    cases r with
    | nil => exact (edge_of_isPad hpad).name
    | cons c r => exact h
  positional := placeholder?_padded_eq_none hpad

/-! ## The recognisers -/

theorem optionName?_padded (s : List Char) :
    optionName? (s ++ pad) = (optionName? s).map (·.padded pad) := by
  cases hs : optionName? s with
  | none =>
    have hdash : pad.head? ≠ some '-' := head_ne_of_isPad hpad (by decide)
    cases s with
    | nil =>
      cases pad with
      | nil => rfl
      | cons c pad => exact optionName?_of_ne (by simpa using hdash) pad
    | cons c s =>
      have hnil : optionName? ((c :: s) ++ []) = none := by rw [List.append_nil, hs]
      exact optionName?_append_eq_none (by simp) hnil (edge_of_isPad hpad).name hdash
  | some cut =>
    have hcut : cut.taken ++ cut.rest = s := (takes_of_optionName? hs).1
    rw [← hcut, List.append_assoc]
    exact optionName?_append hs (alike_padded hpad cut.rest).name

theorem placeholder?_padded (s : List Char) :
    placeholder? (s ++ pad) = (placeholder? s).map (·.padded pad) := by
  cases hs : placeholder? s with
  | none => exact placeholder?_padded_eq_none hpad hs
  | some cut =>
    have hcut : cut.taken ++ cut.rest = s := (takes_of_placeholder? hs).1
    rw [← hcut, List.append_assoc]
    exact placeholder?_append hs (alike_padded hpad cut.rest).ends

theorem word?_padded (s : List Char) :
    word? (s ++ pad) = (word? s).map (·.padded pad) := by
  cases hs : word? s with
  | none =>
    cases s with
    | nil =>
      cases pad with
      | nil => rfl
      | cons c pad =>
        have hc := head_of_wordTail (edge_of_isPad hpad).word c rfl
        simp [word?, hc]
    | cons c s =>
      by_cases hc : isWordPart c = true
      · simp [word?, hc] at hs
      · simp [word?, hc]
  | some cut =>
    have hcut : cut.taken ++ cut.rest = s := (takes_of_word? hs).1
    rw [← hcut, List.append_assoc]
    exact word?_append hs (alike_padded hpad cut.rest).word

omit hpad in
theorem valueJoint_padded {r : List Char} (hr : r ≠ []) :
    valueJoint (r ++ pad) = (valueJoint r).padded pad := by
  cases r with
  | nil => exact absurd rfl hr
  | cons c r =>
    by_cases hequals : c = '='
    · subst hequals
      rfl
    · by_cases hspace : c = ' '
      · subst hspace
        rfl
      · rw [List.cons_append, valueJoint_of_ne hequals hspace, valueJoint_of_ne hequals hspace]
        rfl

theorem no_value_in_pad : placeholder? (valueJoint pad).rest = none := by
  have hsuffix : (valueJoint pad).rest <:+ pad := ⟨_, valueJoint_isOf pad⟩
  have hrest : IsPad (valueJoint pad).rest := fun c hc => hpad c (hsuffix.mem hc)
  exact (edge_of_isPad hrest).placeholder?_eq_none (head_ne_of_isPad hrest (by decide))

theorem optionUse?_padded (s : List Char) :
    optionUse? (s ++ pad) = (optionUse? s).map (·.padded pad) := by
  rw [optionUse?, optionUse?, optionName?_padded hpad]
  cases hs : optionName? s with
  | none => rfl
  | some name =>
    simp only [Option.map_some, Cut.padded]
    by_cases hrest : name.rest = []
    · have hnone : placeholder? (valueJoint name.rest).rest = none := by rw [hrest]; rfl
      have hnone' : placeholder? (valueJoint (name.rest ++ pad)).rest = none := by
        rw [hrest]
        exact no_value_in_pad hpad
      simp [hnone, hnone', OptionUse.padded]
    · rw [valueJoint_padded hrest]
      simp only [Cut.padded, placeholder?_padded hpad]
      cases placeholder? (valueJoint name.rest).rest <;> rfl

theorem isBinaryChar_of_head : ∀ c ∈ pad.head?, isBinaryChar c = false := by
  intro c hc
  have hblank := isBlank_of_isLayout (hpad c (List.mem_of_mem_head? hc))
  simp [isBinaryChar, hblank]

theorem baseName?_padded (s : List Char) :
    baseName? (s ++ pad) = (baseName? s).map (·.padded pad) := by
  cases s with
  | nil =>
    cases pad with
    | nil => rfl
    | cons c pad =>
      have hc := isBinaryChar_of_head hpad c rfl
      simp [baseName?, isBinaryStart, hc]
  | cons c s =>
    rw [List.cons_append, baseName?, baseName?, run_padded (Or.inr (isBinaryChar_of_head hpad))]
    by_cases hc : isBinaryStart c = true
    · simp [hc, Cut.padded, Cut.after]
    · simp [hc]

theorem ne_of_padded {t : List Char} (ht : Tight t) (hne : t ≠ []) {s : List Char}
    (hs : ∀ r, s ≠ t ++ r) (r : List Char) : s ++ pad ≠ t ++ r := by
  intro heq
  rcases exists_rest_of_tight hpad ht heq.symm with hnil | ⟨rest, hrest, _⟩
  · exact hne hnil
  · exact hs rest hrest

theorem binaryName?_padded (s : List Char) :
    binaryName? (s ++ pad) = (binaryName? s).map (·.padded pad) := by
  have hbase := baseName?_padded hpad
  by_cases hone : ∃ t, s = ['.', '/'] ++ t
  · obtain ⟨t, rfl⟩ := hone
    show (baseName? (t ++ pad)).map _ = ((baseName? t).map _).map _
    rw [hbase, Option.map_map, Option.map_map]
    rfl
  · by_cases htwo : ∃ t, s = ['.', '.', '/'] ++ t
    · obtain ⟨t, rfl⟩ := htwo
      show (baseName? (t ++ pad)).map _ = ((baseName? t).map _).map _
      rw [hbase, Option.map_map, Option.map_map]
      rfl
    · have hone : ∀ t, s ≠ ['.', '/'] ++ t := fun t heq => hone ⟨t, heq⟩
      have htwo : ∀ t, s ≠ ['.', '.', '/'] ++ t := fun t heq => htwo ⟨t, heq⟩
      rw [binaryName?_of_ne hone htwo, binaryName?_of_ne
        (ne_of_padded hpad (by decide) (by simp) hone)
        (ne_of_padded hpad (by decide) (by simp) htwo)]
      exact hbase s

end Recognisers

/-! ## Indentation -/

theorem indent_padded {s : List Char} (h : (indent s).rest ≠ []) (pad : List Char) :
    indent (s ++ pad) = (indent s).padded pad :=
  run_padded (Or.inl h)

theorem indent_rest_eq_nil_iff {s : List Char} : (indent s).rest = [] ↔ IsPad s := by
  constructor
  · intro h c hc
    have hs : (indent s).taken ++ (indent s).rest = s := Cut.run_isOf _ s
    rw [h, List.append_nil] at hs
    rw [← hs] at hc
    exact List.all_eq_true.1 List.all_takeWhile c hc
  · intro h
    have hhead : ∀ c ∈ (indent s).rest.head?, isLayout c = false := head?_dropWhile s
    have hsuffix : (indent s).rest <:+ s := ⟨_, Cut.run_isOf _ s⟩
    cases hrest : (indent s).rest with
    | nil => rfl
    | cons c rest =>
      rw [hrest] at hhead hsuffix
      have hc := h c (hsuffix.mem List.mem_cons_self)
      rw [hhead c rfl] at hc
      cases hc

end Lexeme

/-! ## Tokens -/

section Tokens

variable {pad : List Char} (hpad : IsPad pad)

include hpad

theorem Token.readMark?_padded (s : List Char) :
    readMark? (s ++ pad) = (readMark? s).map fun (token, r) => (token, r ++ pad) := by
  have htight : ∀ token ∈ marks, token.chars ≠ [] ∧ Tight token.chars := by decide
  cases hs : readMark? s with
  | some read =>
    obtain ⟨hmark, rfl⟩ := readMark?_eq_some_iff.1 hs
    exact readMark?_eq_some_iff.2 ⟨hmark, List.append_assoc _ _ _⟩
  | none =>
    cases hread : readMark? (s ++ pad) with
    | none => rfl
    | some read =>
      obtain ⟨hmark, htext⟩ := readMark?_eq_some_iff.1 hread
      obtain ⟨hne, hend⟩ := htight _ hmark
      rcases exists_rest_of_tight hpad hend htext.symm with hnil | ⟨rest, hrest, _⟩
      · exact absurd hnil hne
      · rw [readMark?_eq_some_iff.2 ⟨hmark, hrest⟩] at hs
        cases hs

/-- A token is read alike in front of a pad, and leaves the pad. -/
theorem Token.read?_padded (s : List Char) :
    read? (s ++ pad) = (read? s).map fun (token, r) => (token, r ++ pad) := by
  simp only [read?, Option.orElse_eq_orElse, Option.orElse_eq_or, readOption?,
    readPositional?, readWord?, readMark?_padded hpad, optionUse?_padded hpad,
    placeholder?_padded hpad, word?_padded hpad, Option.map_or, Option.map_map]
  rfl

namespace Usage

/-- The token in a line with more behind it. -/
def ScannedToken.padded (pad : List Char) (x : ScannedToken) : ScannedToken :=
  { x with tail := x.tail ++ pad }

/-- The tokens of a line with more behind it. -/
def Scan.padded (pad : List Char) (scan : Scan) : Scan :=
  ⟨scan.tokens.map (·.padded pad), scan.unreadable.map (· ++ pad)⟩

/-- A line with a pad behind it has the same tokens. -/
theorem scan_padded (spaced : Bool) (s : List Char) :
    scan spaced (s ++ pad) = (scan spaced s).padded pad := by
  induction spaced, s using scan_induction with
  | layout spaced s hrest =>
    have hlayout : (indent (s ++ pad)).rest = [] :=
      indent_rest_eq_nil_iff.2 (Text.IsPad.append (indent_rest_eq_nil_iff.1 hrest) hpad)
    rw [scan_of_layout hrest, scan_of_layout hlayout]
    rfl
  | unreadable spaced s hrest hread =>
    have hindent := indent_padded hrest pad
    have hagain := Token.read?_padded hpad (indent s).rest
    rw [hread] at hagain
    have hne : (indent (s ++ pad)).rest ≠ [] := by simp [hindent, Cut.padded, hrest]
    rw [scan_of_unreadable hrest hread, scan_of_unreadable hne (by rw [hindent]; exact hagain),
      hindent]
    rfl
  | read spaced s token rest hread ih =>
    have hrest : (indent s).rest ≠ [] :=
      List.ne_nil_of_length_pos (Nat.zero_lt_of_lt (Token.length_lt_of_read? hread))
    have hindent := indent_padded hrest pad
    have hagain := Token.read?_padded hpad (indent s).rest
    rw [hread] at hagain
    rw [scan_of_read spaced hread,
      scan_of_read spaced (s := s ++ pad) (by rw [hindent]; exact hagain), hindent, ih]
    rfl

end Usage

end Tokens

/-! ## What stands at the end of a line -/

/-- The blanks at the end of the text are spaces and tabs. -/
def Text.PlainEnd (s : List Char) : Prop :=
  ∃ t pad, s = t ++ pad ∧ Tight t ∧ IsPad pad

theorem Text.IsPad.plainEnd {pad : List Char} (h : IsPad pad) : PlainEnd pad :=
  ⟨[], pad, rfl, tight_nil, h⟩

theorem Text.PlainEnd.behind_pad {s pad : List Char} (h : PlainEnd s) (hpad : IsPad pad) :
    PlainEnd (pad ++ s) := by
  obtain ⟨t, pad', rfl, ht, hpad'⟩ := h
  by_cases hne : t = []
  · subst hne
    exact (Text.IsPad.append hpad hpad').plainEnd
  · exact ⟨pad ++ t, pad', by simp, ht.append_of_ne_nil hne pad, hpad'⟩

theorem Text.PlainEnd.behind_tight {s t : List Char} (h : PlainEnd s) (ht : Tight t) :
    PlainEnd (t ++ s) := by
  obtain ⟨t', pad, rfl, ht', hpad⟩ := h
  exact ⟨t ++ t', pad, by simp, ht.append ht', hpad⟩

theorem Lexeme.indent_taken_isPad (s : List Char) : IsPad (indent s).taken :=
  fun c hc => List.all_eq_true.1 List.all_takeWhile c hc

/-- A line in which everything can be read ends with a token, or with a pad behind it. -/
theorem Usage.plainEnd_of_scan {spaced : Bool} {s : List Char}
    (h : (scan spaced s).unreadable = none) : PlainEnd s := by
  induction spaced, s using scan_induction with
  | layout spaced s hrest => exact Text.IsPad.plainEnd (indent_rest_eq_nil_iff.1 hrest)
  | unreadable spaced s hrest hread =>
    rw [scan_of_unreadable hrest hread] at h
    cases h
  | read spaced s token rest hread ih =>
    rw [scan_of_read spaced hread] at h
    have hs : (indent s).taken ++ (indent s).rest = s := Cut.run_isOf _ s
    obtain ⟨taken, htaken, htight⟩ := (Token.read?_eq_some_iff.1 hread).tight
    have hlater := (ih h).behind_tight htight
    rw [← htaken] at hlater
    rw [← hs]
    exact hlater.behind_pad (indent_taken_isPad s)

end Synopsis
