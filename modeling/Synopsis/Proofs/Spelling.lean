import Mathlib.Data.List.TakeWhile
import Synopsis.Usage.Parse

/-!
# Texts that look alike

A recogniser looks ahead: a word stops at a dot that no word part follows, and a
capitalised placeholder stops at a word boundary.  So what is recognised depends on
what stands behind it.

`Alike r R` says that `R` looks the same as `r` to every recogniser that stops in
front of it.  Then what was cut in front of `r` is cut again in front of `R`
(`optionName?_append`, `placeholder?_append`, `word?_append`), and where nothing was
cut nothing is (`optionName?_append_eq_none`, `placeholder?_append_eq_none`).

Two kinds of texts are alike.  Texts at an edge, which stop every recogniser, are alike
whatever they are (`Alike.of_edges`).  Texts that start with the same word part are
alike when their tails agree on where no placeholder ends (`Alike.cons`).
-/

namespace Synopsis

namespace Lexeme

open Text

/-! ## Character classes -/

theorem isWordPart_of_isOptionChar {c : Char} (h : isOptionChar c = true) :
    isWordPart c = true := by
  simp only [isOptionChar, isWordPart, Bool.not_eq_true', Bool.or_eq_false_iff] at h ⊢
  exact ⟨h.1.1.1, h.1.2⟩

theorem isCapitalPart_of_isUpper {c : Char} (h : c.isUpper = true) :
    isCapitalPart c = true := by
  simp [isCapitalPart, h]

/-- No character between the space and the next blank is a blank. -/
theorem not_isBlank_of_range {c : Char} (hlow : 32 < c.toNat) (hhigh : c.toNat < 133) :
    isBlank c = false := by
  have h1 : ¬ c.toNat ≤ 13 := by omega
  have h2 : ¬ c.toNat ≤ 32 := by omega
  simp [isBlank, blankRanges, inRanges, h1, h2, hhigh]

theorem isWordPart_of_isUpper {c : Char} (h : c.isUpper = true) : isWordPart c = true := by
  have hne : ∀ d : Char, d.isUpper = false → c ≠ d := by
    rintro d hd rfl
    exact absurd h (by simp [hd])
  have hrange : 65 ≤ c.toNat ∧ c.toNat ≤ 90 := of_decide_eq_true h
  have hblank : isBlank c = false := not_isBlank_of_range (by omega) (by omega)
  simp [isWordPart, hblank, isStructural, hne '(' rfl, hne ')' rfl, hne '[' rfl, hne ']' rfl,
    hne '|' rfl, hne '<' rfl, hne '.' rfl]

/-! ## Where placeholders end -/

/-- Where no placeholder ends at or in the one text, none ends at or in the other. -/
def NoEnd (r R : List Char) : Prop :=
  ∀ last, capitalTail? last r = none → capitalTail? last R = none

theorem capitalTail?_cons (last c : Char) (s : List Char) :
    capitalTail? last (c :: s) =
      match if isCapitalPart c then capitalTail? c s else none with
      | some cut => some (cut.after [c])
      | none => if isWordChar last != isWordChar c then some ⟨[], c :: s⟩ else none := rfl

theorem NoEnd.cons {r R : List Char} (h : NoEnd r R) (c : Char) :
    NoEnd (c :: r) (c :: R) := by
  intro last hnone
  rw [capitalTail?_cons] at hnone ⊢
  by_cases hc : isCapitalPart c = true
  · cases htail : capitalTail? c r with
    | some cut => simp [hc, htail] at hnone
    | none => simpa [hc, htail, h c htail] using hnone
  · simpa [hc] using hnone

theorem NoEnd.append {r R : List Char} (h : NoEnd r R) (s : List Char) :
    NoEnd (s ++ r) (s ++ R) := by
  induction s with
  | nil => exact h
  | cons c s ih => exact ih.cons c

/-- A placeholder that ends in front of the one text ends in front of the other. -/
def EndAlike (r R : List Char) : Prop :=
  ∀ last, capitalTail? last r = some ⟨[], r⟩ → capitalTail? last R = some ⟨[], R⟩

theorem NoEnd.endAlike_cons {r R : List Char} (h : NoEnd r R) (c : Char) :
    EndAlike (c :: r) (c :: R) := by
  intro last hend
  rw [capitalTail?_cons] at hend ⊢
  by_cases hc : isCapitalPart c = true
  · cases htail : capitalTail? c r with
    | some cut => simp [hc, htail, Cut.after] at hend
    | none => simpa [hc, htail, h c htail] using hend
  · simpa [hc] using hend

/-! ## Texts at an edge -/

/-- No recogniser goes on into the text. -/
structure Edge (s : List Char) : Prop where
  boundary : ∀ c ∈ s.head?, isWordChar c = false ∧ isCapitalPart c = false
  name : ∀ c ∈ s.head?, isOptionChar c = false
  word : wordTail s = ⟨[], s⟩

theorem edge_nil : Edge [] :=
  ⟨by simp, by simp, rfl⟩

theorem edge_cons {c : Char} (hword : isWordChar c = false)
    (hcapital : isCapitalPart c = false) (hpart : isWordPart c = false) (hdot : c ≠ '.')
    (s : List Char) : Edge (c :: s) := by
  refine ⟨fun d hd => ?_, fun d hd => ?_, ?_⟩
  · obtain rfl : c = d := by simpa using hd
    exact ⟨hword, hcapital⟩
  · obtain rfl : c = d := by simpa using hd
    cases hc : isOptionChar c with
    | false => rfl
    | true => exact absurd (isWordPart_of_isOptionChar hc) (by simp [hpart])
  · rw [wordTail]
    · simp [hpart]
    · intro _ _ heq
      exact absurd heq hdot

theorem edge_dots (s : List Char) : Edge ('.' :: '.' :: s) := by
  refine ⟨fun c hc => ?_, fun c hc => ?_, ?_⟩
  · obtain rfl : '.' = c := by simpa using hc
    decide
  · obtain rfl : '.' = c := by simpa using hc
    decide
  · have hpart : isWordPart '.' = false := by decide
    rw [wordTail]
    simp [hpart]

theorem edge_of_isLayout {c : Char} (h : isLayout c = true) (s : List Char) :
    Edge (c :: s) := by
  rcases isLayout_iff.1 h with rfl | rfl
  · exact edge_cons (by decide) (by decide) (by decide) (by decide) s
  · exact edge_cons (by decide) (by decide) (by decide) (by decide) s

theorem edge_of_isStructural {c : Char} (h : isStructural c = true) (s : List Char) :
    Edge (c :: s) := by
  simp only [isStructural, Bool.or_eq_true, beq_iff_eq] at h
  rcases h with (((rfl | rfl) | rfl) | rfl) | rfl
  all_goals exact edge_cons (by decide) (by decide) (by decide) (by decide) s

theorem edge_angle (s : List Char) : Edge ('<' :: s) :=
  edge_cons (by decide) (by decide) (by decide) (by decide) s

namespace Edge

variable {s : List Char}

theorem capitalTail?_eq (h : Edge s) (last : Char) :
    capitalTail? last s = if isWordChar last then some ⟨[], s⟩ else none := by
  cases s with
  | nil => rfl
  | cons c s =>
    obtain ⟨hword, hcapital⟩ := h.boundary c (by simp)
    rw [capitalTail?_cons]
    simp [hword, hcapital]

theorem placeholder?_eq_none (h : Edge s) (hs : s.head? ≠ some '<') :
    placeholder? s = none := by
  cases s with
  | nil => rfl
  | cons c s =>
    have hupper : c.isUpper = false := by
      cases hc : c.isUpper with
      | false => rfl
      | true =>
        have hcapital := (h.boundary c (by simp)).2
        rw [isCapitalPart_of_isUpper hc] at hcapital
        cases hcapital
    have hangle : c ≠ '<' := by simpa using hs
    rw [placeholder?, capitalised?, hupper, bracketed?]
    · rfl
    · intro _ heq
      exact hangle (List.cons.inj heq).1

end Edge

/-! ## Texts that look alike -/

/-- The second text looks the same as the first to a recogniser that stops in front
of it. -/
structure Alike (r R : List Char) : Prop where
  noEnd : NoEnd r R
  ends : EndAlike r R
  word : wordTail r = ⟨[], r⟩ → wordTail R = ⟨[], R⟩
  name : (∀ c ∈ r.head?, isOptionChar c = false) → ∀ c ∈ R.head?, isOptionChar c = false
  positional : placeholder? r = none → placeholder? R = none

theorem Alike.of_edges {r R : List Char} (hr : Edge r) (hR : Edge R)
    (h : placeholder? r = none → placeholder? R = none) : Alike r R := by
  refine ⟨fun last hlast => ?_, fun last hlast => ?_, fun _ => hR.word, fun _ => hR.name, h⟩
  · rw [hr.capitalTail?_eq] at hlast
    rw [hR.capitalTail?_eq]
    by_cases hword : isWordChar last = true
    · simp [hword] at hlast
    · simp [hword]
  · rw [hr.capitalTail?_eq] at hlast
    rw [hR.capitalTail?_eq]
    by_cases hword : isWordChar last = true
    · simp [hword]
    · simp [hword] at hlast

theorem wordTail_ne_of_isWordPart {c : Char} (h : isWordPart c = true) (s : List Char) :
    wordTail (c :: s) ≠ ⟨[], c :: s⟩ := by
  have hdot : c ≠ '.' := by
    intro heq
    subst heq
    exact absurd h (by decide)
  rw [wordTail]
  · simp [h, Cut.after]
  · intro _ _ heq
    exact absurd heq hdot

theorem Alike.cons {c : Char} {r R : List Char} (hc : isWordPart c = true)
    (h : NoEnd r R) (hp : placeholder? (c :: r) = none → placeholder? (c :: R) = none) :
    Alike (c :: r) (c :: R) := by
  refine ⟨h.cons c, h.endAlike_cons c, fun hword => ?_, fun hname d hd => ?_, hp⟩
  · exact absurd hword (wordTail_ne_of_isWordPart hc r)
  · exact hname d (by simpa using hd)

/-! ## The same cut of another text -/

/-- A run ends before what is no part of it. -/
theorem span_append {α : Type} {p : α → Bool} {s R : List α} (hs : ∀ c ∈ s, p c = true)
    (hR : ∀ c ∈ R.head?, p c = false) :
    (s ++ R).takeWhile p = s ∧ (s ++ R).dropWhile p = R := by
  rw [List.takeWhile_append_of_pos hs, List.dropWhile_append_of_pos hs]
  cases R with
  | nil => simp
  | cons c R => simp [hR c rfl]

theorem takeWhile_append_of_head {p : Char → Bool} (s : List Char) {R : List Char}
    (hR : ∀ c ∈ R.head?, p c = false) :
    (s.takeWhile p ++ R).takeWhile p = s.takeWhile p ∧
      (s.takeWhile p ++ R).dropWhile p = R :=
  span_append (List.all_eq_true.1 List.all_takeWhile) hR

theorem head?_dropWhile {α : Type} {p : α → Bool} (s : List α) :
    ∀ c ∈ (s.dropWhile p).head?, p c = false := by
  intro c hc
  have h := List.head?_dropWhile_not p s
  rw [Option.mem_def.1 hc] at h
  simpa using h

theorem optionName?_append {u R : List Char} {cut : Cut} (h : optionName? u = some cut)
    (hR : (∀ c ∈ cut.rest.head?, isOptionChar c = false) →
      ∀ c ∈ R.head?, isOptionChar c = false) :
    optionName? (cut.taken ++ R) = some ⟨cut.taken, R⟩ := by
  unfold optionName? at h
  split at h
  · rename_i s
    obtain ⟨run, hrun, rfl⟩ := Option.map_eq_some_iff.1 h
    unfold Cut.run1? at hrun
    split at hrun
    · cases hrun
    · rename_i hne
      obtain rfl := Option.some.inj hrun
      obtain ⟨htake, hdrop⟩ := takeWhile_append_of_head s (hR (head?_dropWhile s))
      simp [optionName?, Cut.after, Cut.run1?, Cut.run, htake, hdrop, hne]
  · rename_i c s hdash
    split at h
    · rename_i hc
      obtain rfl := Option.some.inj h
      have hc' : c ≠ '-' := hdash
      show optionName? ('-' :: c :: R) = _
      unfold optionName?
      split
      · rename_i heq
        exact absurd (List.cons.inj (List.cons.inj heq).2).1 hc'
      · rename_i heq
        obtain ⟨rfl, rfl⟩ := List.cons.inj (List.cons.inj heq).2
        simp [hc]
      · rename_i hother
        exact absurd rfl (hother c R)
    · cases h
  · cases h

/-- A placeholder in capitals that ends in front of one rest ends in front of another
that looks alike. -/
theorem capitalTail?_append {r R : List Char} (hends : EndAlike r R) {last : Char}
    {s : List Char} {cut : Cut} (h : capitalTail? last s = some cut) (hr : cut.rest = r) :
    capitalTail? last (cut.taken ++ R) = some ⟨cut.taken, R⟩ := by
  induction s generalizing last cut with
  | nil =>
    have hcut : cut = ⟨[], []⟩ := by
      rw [capitalTail?] at h
      split at h
      · exact (Option.some.inj h).symm
      · cases h
    subst hcut
    subst hr
    exact hends last h
  | cons c s ih =>
    rw [capitalTail?_cons] at h
    by_cases hc : isCapitalPart c = true
    · cases htail : capitalTail? c s with
      | some tail =>
        simp only [hc, htail, if_true, Option.some.injEq] at h
        subst h
        have hlater := ih htail hr
        show capitalTail? last (c :: (tail.taken ++ R)) = _
        rw [capitalTail?_cons]
        simp [hc, hlater, Cut.after]
      | none =>
        simp only [hc, htail, if_true] at h
        split at h
        · rename_i hboundary
          obtain rfl := Option.some.inj h
          subst hr
          apply hends last
          rw [capitalTail?_cons]
          simp [hc, htail, hboundary]
        · cases h
    · simp only [hc, if_false, Bool.false_eq_true] at h
      split at h
      · rename_i hboundary
        obtain rfl := Option.some.inj h
        subst hr
        apply hends last
        rw [capitalTail?_cons]
        simp [hc, hboundary]
      · cases h

theorem exists_of_bracketed? {u : List Char} {cut : Cut} (h : bracketed? u = some cut) :
    ∃ c body, cut.taken = '<' :: (c :: body ++ ['>']) ∧
      (c :: body).takeWhile (· != '>') = c :: body := by
  unfold bracketed? at h
  split at h
  · simp only at h
    split at h
    · rename_i c body rest hbody _
      obtain rfl := Option.some.inj h
      refine ⟨c, body, by simp [hbody], ?_⟩
      rw [← hbody]
      exact List.takeWhile_idem
    · cases h
  · cases h

/-- An angle bracket ends a placeholder whatever follows. -/
theorem bracketed?_append {u : List Char} {cut : Cut} (h : bracketed? u = some cut)
    (R : List Char) : bracketed? (cut.taken ++ R) = some ⟨cut.taken, R⟩ := by
  obtain ⟨c, body, htaken, hbody⟩ := exists_of_bracketed? h
  have hR : ∀ d ∈ ('>' :: R).head?, (d != '>') = false := by simp
  obtain ⟨htake, hdrop⟩ := takeWhile_append_of_head (c :: body) hR
  rw [hbody] at htake hdrop
  rw [htaken, List.cons_append, List.append_assoc, List.singleton_append, bracketed?]
  simp only [Cut.run, htake, hdrop]
  simp

theorem placeholder?_append {u R : List Char} {cut : Cut} (h : placeholder? u = some cut)
    (hends : EndAlike cut.rest R) : placeholder? (cut.taken ++ R) = some ⟨cut.taken, R⟩ := by
  rcases Option.or_eq_some_iff.1 h with h | ⟨_, h⟩
  · rw [placeholder?, bracketed?_append h R]
    rfl
  · cases u with
    | nil => cases h
    | cons c s =>
      rw [capitalised?] at h
      split at h
      · rename_i hupper
        obtain ⟨tail, htail, rfl⟩ := Option.map_eq_some_iff.1 h
        have hlater := capitalTail?_append hends htail rfl
        have hangle : bracketed? (c :: (tail.taken ++ R)) = none := by
          rw [bracketed?]
          intro _ heq
          obtain ⟨rfl, -⟩ := List.cons.inj heq
          cases hupper
        show placeholder? (c :: (tail.taken ++ R)) = _
        rw [placeholder?, hangle, capitalised?, if_pos hupper, hlater]
        rfl
      · cases h

theorem wordTail_cons {c : Char} (hc : isWordPart c = true) (s : List Char) :
    wordTail (c :: s) = (wordTail s).after [c] := by
  have hdot : c ≠ '.' := by
    intro heq
    subst heq
    exact absurd hc (by decide)
  rw [wordTail]
  · simp [hc]
  · intro _ _ heq
    exact absurd heq hdot

theorem wordTail_dot_cons {c : Char} (hc : isWordPart c = true) (s : List Char) :
    wordTail ('.' :: c :: s) = (wordTail (c :: s)).after ['.'] := by
  rw [wordTail, if_pos hc]

/-- A word stops again in front of what it stopped in front of. -/
theorem wordTail_rest (s : List Char) :
    wordTail (wordTail s).rest = ⟨[], (wordTail s).rest⟩ := by
  fun_induction wordTail s with
  | case1 => rfl
  | case2 c s _ ih => exact ih
  | case3 c s hc =>
    rw [wordTail]
    simp [hc]
  | case4 c s _ _ ih => exact ih
  | case5 c s hdot hc =>
    rw [wordTail]
    · simp [hc]
    · exact hdot

theorem wordTail_append {R : List Char} (hR : wordTail R = ⟨[], R⟩) (s : List Char) :
    wordTail ((wordTail s).taken ++ R) = ⟨(wordTail s).taken, R⟩ := by
  fun_induction wordTail s with
  | case1 => exact hR
  | case2 c s hc ih =>
    rw [wordTail_cons hc] at ih ⊢
    have hlater := wordTail_dot_cons hc ((wordTail s).taken ++ R)
    simp only [Cut.after, List.cons_append, List.nil_append] at ih hlater ⊢
    rw [hlater, ih]
  | case3 => exact hR
  | case4 c s _ hc ih =>
    have hlater := wordTail_cons hc ((wordTail s).taken ++ R)
    simp only [Cut.after, List.cons_append, List.nil_append] at ih hlater ⊢
    rw [hlater, ih]
  | case5 => exact hR

theorem word?_rest {u : List Char} {cut : Cut} (h : word? u = some cut) :
    wordTail cut.rest = ⟨[], cut.rest⟩ := by
  cases u with
  | nil => cases h
  | cons c s =>
    rw [word?] at h
    split at h
    · obtain rfl := Option.some.inj h
      exact wordTail_rest s
    · cases h

theorem angle_not_mem_wordTail (s : List Char) : '<' ∉ (wordTail s).taken := by
  have hangle : isWordPart '<' = false := by decide
  fun_induction wordTail s with
  | case1 => simp
  | case2 c s _ ih => simpa [Cut.after] using ih
  | case3 => simp
  | case4 c s _ hc ih =>
    have hne : '<' ≠ c := by
      intro heq
      subst heq
      exact absurd hc (by simp [hangle])
    simpa [Cut.after, hne] using ih
  | case5 => simp

theorem angle_not_mem_of_word? {u : List Char} {cut : Cut} (h : word? u = some cut) :
    '<' ∉ cut.taken := by
  cases u with
  | nil => cases h
  | cons c s =>
    rw [word?] at h
    split at h
    · rename_i hc
      obtain rfl := Option.some.inj h
      have hne : '<' ≠ c := by
        intro heq
        subst heq
        exact absurd hc (by decide)
      simpa [Cut.after, hne] using angle_not_mem_wordTail s
    · cases h

theorem word?_append {u R : List Char} {cut : Cut} (h : word? u = some cut)
    (hR : wordTail cut.rest = ⟨[], cut.rest⟩ → wordTail R = ⟨[], R⟩) :
    word? (cut.taken ++ R) = some ⟨cut.taken, R⟩ := by
  cases u with
  | nil => cases h
  | cons c s =>
    rw [word?] at h
    split at h
    · rename_i hc
      obtain rfl := Option.some.inj h
      have hlater := wordTail_append (hR (wordTail_rest s)) s
      show word? (c :: ((wordTail s).taken ++ R)) = _
      rw [word?, if_pos hc, hlater]
      rfl
    · cases h

theorem exists_head_of_baseName? {s : List Char} {cut : Cut} (h : baseName? s = some cut) :
    ∃ c, s.head? = some c ∧ isBinaryStart c = true ∧
      cut.taken = c :: s.tail.takeWhile isBinaryChar := by
  cases s with
  | nil => cases h
  | cons c s =>
    rw [baseName?] at h
    split at h
    · rename_i hc
      obtain rfl := Option.some.inj h
      exact ⟨c, rfl, hc, rfl⟩
    · cases h

theorem baseName?_append {s R : List Char} {cut : Cut} (h : baseName? s = some cut)
    (hR : ∀ c ∈ R.head?, isBinaryChar c = false) :
    baseName? (cut.taken ++ R) = some ⟨cut.taken, R⟩ := by
  obtain ⟨c, _, hc, htaken⟩ := exists_head_of_baseName? h
  obtain ⟨htake, hdrop⟩ := takeWhile_append_of_head s.tail hR
  rw [htaken, List.cons_append, baseName?, if_pos hc, Cut.run, htake, hdrop]
  rfl

/-- The name of a program is read again in front of a space. -/
theorem binaryName?_append {s R : List Char} {cut : Cut} (h : binaryName? s = some cut)
    (hR : ∀ c ∈ R.head?, isBinaryChar c = false) :
    binaryName? (cut.taken ++ R) = some ⟨cut.taken, R⟩ := by
  unfold binaryName? at h
  split at h
  · obtain ⟨base, hbase, rfl⟩ := Option.map_eq_some_iff.1 h
    have hagain := baseName?_append hbase hR
    simp [binaryName?, Cut.after, hagain]
  · obtain ⟨base, hbase, rfl⟩ := Option.map_eq_some_iff.1 h
    have hagain := baseName?_append hbase hR
    simp [binaryName?, Cut.after, hagain]
  · have hagain := baseName?_append h hR
    obtain ⟨c, _, hc, htaken⟩ := exists_head_of_baseName? h
    have hdot : c ≠ '.' := by
      intro heq
      subst heq
      exact absurd hc (by decide)
    rw [htaken, List.cons_append] at hagain ⊢
    rw [binaryName?]
    · exact hagain
    · intro _ heq
      exact hdot (List.cons.inj heq).1
    · intro _ heq
      exact hdot (List.cons.inj heq).1

theorem isBinaryChar_of_baseName? {s : List Char} {cut : Cut} (h : baseName? s = some cut) :
    ∀ c ∈ cut.taken, isBinaryChar c = true := by
  obtain ⟨c, _, hc, htaken⟩ := exists_head_of_baseName? h
  have hfirst := (Bool.and_eq_true_iff.1 hc).1
  rw [htaken]
  intro d hd
  rcases List.mem_cons.1 hd with rfl | hd
  · exact hfirst
  · exact List.all_eq_true.1 List.all_takeWhile d hd

theorem isBinaryChar_of_binaryName? {s : List Char} {cut : Cut}
    (h : binaryName? s = some cut) : ∀ c ∈ cut.taken, isBinaryChar c = true := by
  have hdot : isBinaryChar '.' = true := by decide
  have hslash : isBinaryChar '/' = true := by decide
  unfold binaryName? at h
  split at h
  · obtain ⟨base, hbase, rfl⟩ := Option.map_eq_some_iff.1 h
    simpa [Cut.after, hdot, hslash] using isBinaryChar_of_baseName? hbase
  · obtain ⟨base, hbase, rfl⟩ := Option.map_eq_some_iff.1 h
    simpa [Cut.after, hdot, hslash] using isBinaryChar_of_baseName? hbase
  · exact isBinaryChar_of_baseName? h

/-! ## Nothing is read where nothing was -/

theorem head_of_wordTail {R : List Char} (h : wordTail R = ⟨[], R⟩) :
    ∀ c ∈ R.head?, isWordPart c = false := by
  cases R with
  | nil => simp
  | cons d R =>
    intro c hc
    obtain rfl : d = c := by simpa using hc
    cases hpart : isWordPart d with
    | false => rfl
    | true => exact absurd h (wordTail_ne_of_isWordPart hpart R)

theorem optionName?_of_ne {c : Char} (hc : c ≠ '-') (s : List Char) :
    optionName? (c :: s) = none := by
  unfold optionName?
  split
  · rename_i heq
    exact absurd (List.cons.inj heq).1 hc
  · rename_i heq
    exact absurd (List.cons.inj heq).1 hc
  · rfl

theorem optionName?_one_dash {c : Char} (hc : c ≠ '-') (s : List Char) :
    optionName? ('-' :: c :: s) = if isOptionChar c then some ⟨['-', c], s⟩ else none := by
  unfold optionName?
  split
  · rename_i heq
    exact absurd (List.cons.inj (List.cons.inj heq).2).1 hc
  · rename_i heq
    obtain ⟨rfl, rfl⟩ := List.cons.inj (List.cons.inj heq).2
    rfl
  · rename_i hother
    exact absurd rfl (hother c s)

theorem optionName?_two_dashes (s : List Char) :
    optionName? ('-' :: '-' :: s) = none ↔ ∀ c ∈ s.head?, isOptionChar c = false := by
  cases s with
  | nil => simp [optionName?, Cut.run1?]
  | cons c s =>
    cases hc : isOptionChar c <;> simp [optionName?, Cut.run1?, hc]

/-- A word that is no option name does not become one. -/
theorem optionName?_append_eq_none {w r R : List Char} (hw : w ≠ [])
    (h : optionName? (w ++ r) = none) (hR : ∀ c ∈ R.head?, isOptionChar c = false)
    (hdash : R.head? ≠ some '-') : optionName? (w ++ R) = none := by
  cases w with
  | nil => exact absurd rfl hw
  | cons c w =>
    by_cases hc : c = '-'
    · subst hc
      cases w with
      | nil =>
        cases R with
        | nil => rfl
        | cons d R =>
          have hd : d ≠ '-' := by simpa using hdash
          show optionName? ('-' :: d :: R) = none
          rw [optionName?_one_dash hd, hR d (by simp)]
          rfl
      | cons d w =>
        by_cases hd : d = '-'
        · subst hd
          have hhead := (optionName?_two_dashes (w ++ r)).1 h
          refine (optionName?_two_dashes (w ++ R)).2 ?_
          cases w with
          | nil => exact hR
          | cons e w => exact hhead
        · have hnone : optionName? ('-' :: d :: (w ++ r)) = none := h
          show optionName? ('-' :: d :: (w ++ R)) = none
          rw [optionName?_one_dash hd] at hnone ⊢
          split at hnone
          · cases hnone
          · rename_i hchar
            rw [if_neg hchar]
    · exact optionName?_of_ne hc _

/-- A word that is no placeholder does not become one. -/
theorem placeholder?_append_eq_none {c : Char} {w r R : List Char} (hc : c ≠ '<')
    (h : placeholder? (c :: (w ++ r)) = none) (hR : NoEnd r R) :
    placeholder? (c :: (w ++ R)) = none := by
  have hangle : ∀ s, bracketed? (c :: s) = none := fun s => by
    rw [bracketed?]
    intro _ heq
    exact hc (List.cons.inj heq).1
  rw [placeholder?, hangle, Option.none_or, capitalised?] at h ⊢
  split at h
  · rename_i hupper
    rw [if_pos hupper]
    rw [Option.map_eq_none_iff] at h ⊢
    exact hR.append w c h
  · rename_i hupper
    rw [if_neg hupper]

theorem exists_dash_of_optionName? {u : List Char} {cut : Cut}
    (h : optionName? u = some cut) : ∃ s, cut.taken = '-' :: s := by
  unfold optionName? at h
  split at h
  · obtain ⟨run, _, rfl⟩ := Option.map_eq_some_iff.1 h
    exact ⟨'-' :: run.taken, rfl⟩
  · split at h
    · obtain rfl := Option.some.inj h
      exact ⟨_, rfl⟩
    · cases h
  · cases h

theorem exists_head_of_placeholder? {u : List Char} {cut : Cut}
    (h : placeholder? u = some cut) :
    ∃ c s, cut.taken = c :: s ∧ (c = '<' ∨ c.isUpper = true) := by
  rcases Option.or_eq_some_iff.1 h with h | ⟨_, h⟩
  · obtain ⟨c, body, htaken, _⟩ := exists_of_bracketed? h
    exact ⟨'<', _, htaken, Or.inl rfl⟩
  · cases u with
    | nil => cases h
    | cons c s =>
      rw [capitalised?] at h
      split at h
      · rename_i hupper
        obtain ⟨tail, _, rfl⟩ := Option.map_eq_some_iff.1 h
        exact ⟨c, tail.taken, rfl, Or.inr hupper⟩
      · cases h

theorem exists_head_of_word? {u : List Char} {cut : Cut} (h : word? u = some cut) :
    ∃ c s, cut.taken = c :: s ∧ isWordPart c = true := by
  cases u with
  | nil => cases h
  | cons c s =>
    rw [word?] at h
    split at h
    · rename_i hc
      obtain rfl := Option.some.inj h
      exact ⟨c, (wordTail s).taken, rfl, hc⟩
    · cases h

end Lexeme

end Synopsis
