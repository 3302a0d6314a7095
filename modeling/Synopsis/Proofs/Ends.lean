import Mathlib.Data.List.DropRight
import Synopsis.Proofs.Spelling
import Synopsis.Proofs.Tokens

/-!
# No lexeme ends with a blank

Trimming a text takes blanks from its end.  `Tight` texts stay as they are.  Every name,
placeholder and word is tight, and so is what a token takes of a line (`Reads.tight`):
inside a placeholder in angle brackets blanks may stand, but the bracket ends it.
-/

namespace Synopsis

open Lexeme Text

namespace Text

/-! ## The end of a list -/

section End

variable {α : Type} {p : α → Bool}

theorem rdropWhile_append_of_pos (s : List α) {pad : List α} (hpad : ∀ c ∈ pad, p c = true) :
    (s ++ pad).rdropWhile p = s.rdropWhile p := by
  have hpad : ∀ c ∈ pad.reverse, p c = true := fun c hc => hpad c (List.mem_reverse.1 hc)
  rw [List.rdropWhile, List.reverse_append, List.dropWhile_append_of_pos hpad, List.rdropWhile]

theorem getLast?_rdropWhile (s : List α) : ∀ c ∈ (s.rdropWhile p).getLast?, p c = false := by
  intro c hc
  obtain ⟨hne, rfl⟩ := List.mem_getLast?_eq_getLast hc
  simpa using List.rdropWhile_last_not p s hne

/-- A list is cut in front of the members at its end that satisfy `p`. -/
theorem exists_rdropWhile_append (p : α → Bool) (s : List α) :
    ∃ kept pad, kept ++ pad = s ∧ (∀ c ∈ pad, p c = true) ∧ ∀ c ∈ kept.getLast?, p c = false :=
  ⟨s.rdropWhile p, s.rtakeWhile p, List.rdropWhile_append_rtakeWhile,
    fun _ => List.mem_rtakeWhile_imp, getLast?_rdropWhile s⟩

end End

/-! ## Texts without a blank at the end -/

/-- The text does not end with a blank. -/
def Tight (s : List Char) : Prop :=
  ∀ c ∈ s.getLast?, isBlank c = false

instance (s : List Char) : Decidable (Tight s) :=
  decidable_of_iff (s.getLast?.all (!isBlank ·) = true) <| by
    unfold Tight
    cases s.getLast? <;> simp

theorem tight_nil : Tight [] := by
  simp [Tight]

theorem Tight.append {s t : List Char} (hs : Tight s) (ht : Tight t) : Tight (s ++ t) := by
  intro c hc
  rw [List.getLast?_append] at hc
  cases hget : t.getLast? with
  | none =>
    rw [hget] at hc
    exact hs c hc
  | some d =>
    rw [hget] at hc
    obtain rfl := Option.some.inj hc
    exact ht d hget

/-- Only the end of a text matters. -/
theorem Tight.append_of_ne_nil {t : List Char} (ht : Tight t) (hne : t ≠ []) (s : List Char) :
    Tight (s ++ t) := by
  intro c hc
  apply ht c
  rw [List.getLast?_append] at hc
  cases hget : t.getLast? with
  | none => exact absurd (List.getLast?_eq_none_iff.1 hget) hne
  | some d =>
    rw [hget] at hc
    exact hc

theorem tight_of_forall {s : List Char} (h : ∀ c ∈ s, isBlank c = false) : Tight s :=
  fun c hc => h c (List.mem_of_getLast? hc)

theorem tight_singleton {c : Char} (h : isBlank c = false) : Tight [c] := by
  simp [Tight, h]

theorem trimEnd_append_of_blank (s : List Char) {pad : List Char}
    (hpad : ∀ c ∈ pad, isBlank c = true) : trimEnd (s ++ pad) = trimEnd s :=
  rdropWhile_append_of_pos s hpad

theorem tight_trimEnd (s : List Char) : Tight (trimEnd s) :=
  getLast?_rdropWhile s

theorem exists_trimEnd (s : List Char) :
    ∃ pad, trimEnd s ++ pad = s ∧ ∀ c ∈ pad, isBlank c = true :=
  ⟨s.rtakeWhile isBlank, List.rdropWhile_append_rtakeWhile, fun _ => List.mem_rtakeWhile_imp⟩

theorem Tight.trimEnd_eq {s : List Char} (h : Tight s) : trimEnd s = s :=
  List.rdropWhile_eq_self_iff.2 fun hne => by simp [h _ (List.getLast_mem_getLast? hne)]

end Text

namespace Lexeme

theorem not_isBlank_of_isOptionChar {c : Char} (h : isOptionChar c = true) :
    isBlank c = false := by
  cases hblank : isBlank c with
  | false => rfl
  | true => simp [isOptionChar, hblank] at h

theorem not_isBlank_of_isWordPart {c : Char} (h : isWordPart c = true) :
    isBlank c = false := by
  cases hblank : isBlank c with
  | false => rfl
  | true => simp [isWordPart, hblank] at h

theorem not_isBlank_of_isBinaryChar {c : Char} (h : isBinaryChar c = true) :
    isBlank c = false := by
  cases hblank : isBlank c with
  | false => rfl
  | true => simp [isBinaryChar, hblank] at h

theorem not_isBlank_of_isCapitalPart {c : Char} (h : isCapitalPart c = true) :
    isBlank c = false := by
  simp only [isCapitalPart, Bool.or_eq_true, beq_iff_eq] at h
  rcases h with ((hupper | hdigit) | rfl) | rfl
  · exact not_isBlank_of_isWordPart (isWordPart_of_isUpper hupper)
  · have hrange : 48 ≤ c.toNat ∧ c.toNat ≤ 57 := by
      simp only [Char.isDigit, Bool.and_eq_true, decide_eq_true_eq] at hdigit
      exact hdigit
    exact not_isBlank_of_range (by omega) (by omega)
  · decide
  · decide

/-- An option name holds no blank at all. -/
theorem not_isBlank_of_optionName? {s : List Char} {cut : Cut} (h : optionName? s = some cut) :
    ∀ c ∈ cut.taken, isBlank c = false := by
  have hdash : isBlank '-' = false := by decide
  unfold optionName? at h
  split at h
  · rename_i s
    obtain ⟨run, hrun, rfl⟩ := Option.map_eq_some_iff.1 h
    unfold Cut.run1? at hrun
    split at hrun
    · cases hrun
    · obtain rfl := Option.some.inj hrun
      have hrest : ∀ c ∈ s.takeWhile isOptionChar, isBlank c = false := fun c hc =>
        not_isBlank_of_isOptionChar (List.all_eq_true.1 List.all_takeWhile c hc)
      simpa [Cut.after, Cut.run, hdash] using hrest
  · split at h
    · rename_i hc
      obtain rfl := Option.some.inj h
      simp [hdash, not_isBlank_of_isOptionChar hc]
    · cases h
  · cases h

theorem isCapitalPart_of_capitalTail? {last : Char} {s : List Char} {cut : Cut}
    (h : capitalTail? last s = some cut) : ∀ c ∈ cut.taken, isCapitalPart c = true := by
  induction s generalizing last cut with
  | nil =>
    rw [capitalTail?] at h
    split at h
    · obtain rfl := Option.some.inj h
      simp
    · cases h
  | cons c s ih =>
    rw [capitalTail?] at h
    split at h
    · rename_i tail htail
      obtain rfl := Option.some.inj h
      split at htail
      · rename_i hc
        simpa [Cut.after, hc] using ih htail
      · cases htail
    · split at h
      · obtain rfl := Option.some.inj h
        simp
      · cases h

theorem tight_of_placeholder? {s : List Char} {cut : Cut} (h : placeholder? s = some cut) :
    Tight cut.taken := by
  rcases Option.or_eq_some_iff.1 h with h | ⟨_, h⟩
  · obtain ⟨c, body, htaken, _⟩ := exists_of_bracketed? h
    intro d hd
    rw [htaken, ← List.cons_append, List.getLast?_concat] at hd
    obtain rfl := Option.some.inj hd
    decide
  · cases s with
    | nil => cases h
    | cons c s =>
      rw [capitalised?] at h
      split at h
      · rename_i hupper
        obtain ⟨tail, htail, rfl⟩ := Option.map_eq_some_iff.1 h
        have hfirst := not_isBlank_of_isCapitalPart (isCapitalPart_of_isUpper hupper)
        refine (tight_singleton hfirst).append (tight_of_forall fun d hd => ?_)
        exact not_isBlank_of_isCapitalPart (isCapitalPart_of_capitalTail? htail d hd)
      · cases h

theorem tight_wordTail (s : List Char) : Tight (wordTail s).taken := by
  fun_induction wordTail s with
  | case1 => exact tight_nil
  | case2 c s hc ih =>
    -- The dot is not the end, because a word part follows it.
    rw [wordTail_cons hc] at ih ⊢
    intro d hd
    apply ih d
    simpa [Cut.after] using hd
  | case3 => exact tight_nil
  | case4 c s _ hc ih => exact (tight_singleton (not_isBlank_of_isWordPart hc)).append ih
  | case5 => exact tight_nil

theorem tight_of_word? {s : List Char} {cut : Cut} (h : word? s = some cut) :
    Tight cut.taken := by
  cases s with
  | nil => cases h
  | cons c s =>
    rw [word?] at h
    split at h
    · rename_i hc
      obtain rfl := Option.some.inj h
      exact (tight_singleton (not_isBlank_of_isWordPart hc)).append (tight_wordTail s)
    · cases h

theorem tight_of_binaryName? {s : List Char} {cut : Cut} (h : binaryName? s = some cut) :
    Tight cut.taken :=
  tight_of_forall fun c hc => not_isBlank_of_isBinaryChar (isBinaryChar_of_binaryName? h c hc)

theorem tight_of_optionUse? {s : List Char} {use : OptionUse} (h : optionUse? s = some use) :
    Tight use.taken := by
  obtain ⟨name, hname, rfl⟩ := Option.map_eq_some_iff.1 h
  have htight : Tight name.taken := tight_of_forall (not_isBlank_of_optionName? hname)
  simp only
  split
  · rename_i value hvalue
    have hne := (takes_of_placeholder? hvalue).2
    exact (tight_of_placeholder? hvalue).append_of_ne_nil hne _
  · simpa [OptionUse.taken] using htight

end Lexeme

/-- What a token takes of a line does not end with a blank. -/
theorem Token.Reads.tight {u r : List Char} {token : Token} (h : Token.Reads u token r) :
    ∃ taken, u = taken ++ r ∧ Tight taken := by
  cases h with
  | mark h =>
    have hmarks : ∀ token ∈ Token.marks, Tight token.chars := by decide
    obtain ⟨hmark, hu⟩ := readMark?_eq_some_iff.1 h
    exact ⟨token.chars, hu, hmarks token hmark⟩
  | option use _ h => exact ⟨use.taken, (takes_of_optionUse? h).1.symm, tight_of_optionUse? h⟩
  | positional cut _ _ h =>
    exact ⟨cut.taken, (takes_of_placeholder? h).1.symm, tight_of_placeholder? h⟩
  | word cut _ _ _ h => exact ⟨cut.taken, (takes_of_word? h).1.symm, tight_of_word? h⟩

end Synopsis
