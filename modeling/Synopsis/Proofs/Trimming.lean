import Synopsis.Help.Sections
import Synopsis.Proofs.Lines
import Synopsis.Proofs.Padding

/-!
# Layout around the lines of a usage section

A usage section can be laid out anew: more space around its lines and more lines of layout
between them (`Relaid`).  What is read of it stays the same.

* Two runs `Agree` when their results do, or when both fail for the same cause.  The place
  of a failure may be another one.
* `readLine_agrees` is the step.  What is carried from line to line are readings that
  `Agrees`, where a failure that is still pending counts by its cause.
* `ofLines_relaid` is the result for whole sections, and `parse_relaid` for their texts, where
  the new lines can have either line end.

Trimming a section takes layout from its first line and its last, because nothing else can
stand at their ends when the section is read.  So `ofLines_trimmed` is a case of it.
-/

namespace Synopsis

open Lexeme Text
open Help (isBlankLine)

/-! ## Runs that agree -/

/-- The failures have the same cause.  Their places may differ. -/
def ParseFailure.SameCause (failure failure' : ParseFailure) : Prop :=
  failure.kind = failure'.kind ∧ failure.reason = failure'.reason

/-- The results are related, or both runs fail for the same cause. -/
inductive Agree {α β : Type} (R : α → β → Prop) :
    Except ParseFailure α → Except ParseFailure β → Prop
  | ok {a : α} {b : β} (h : R a b) : Agree R (.ok a) (.ok b)
  | error {failure failure' : ParseFailure} (h : failure.SameCause failure') :
      Agree R (.error failure) (.error failure')

namespace Agree

variable {α β γ δ : Type} {R : α → β → Prop} {S : γ → δ → Prop}
  {x : Except ParseFailure α} {y : Except ParseFailure β}

theorem map (h : Agree R x y) {f : α → γ} {g : β → δ} (hmap : ∀ a b, R a b → S (f a) (g b)) :
    Agree S (x.map f) (y.map g) := by
  cases h with
  | ok h => exact .ok (hmap _ _ h)
  | error h => exact .error h

theorem bind (h : Agree R x y) {f : α → Except ParseFailure γ} {g : β → Except ParseFailure δ}
    (hbind : ∀ a b, R a b → Agree S (f a) (g b)) : Agree S (x.bind f) (y.bind g) := by
  cases h with
  | ok h => exact hbind _ _ h
  | error h => exact .error h

theorem error_or_ok (h : Agree R x y) :
    (∃ f f', x = .error f ∧ y = .error f' ∧ f.SameCause f') ∨
      ∃ a b, x = .ok a ∧ y = .ok b ∧ R a b := by
  cases h with
  | ok h => exact Or.inr ⟨_, _, rfl, rfl, h⟩
  | error h => exact Or.inl ⟨_, _, rfl, rfl, h⟩

theorem eq_ok_iff {x y : Except ParseFailure α} (h : Agree (· = ·) x y) {a : α} :
    x = .ok a ↔ y = .ok a := by
  cases h with
  | ok h => rw [h]
  | error h => simp

end Agree

theorem SourceLine.sameCause (line line' : SourceLine) (violation : Violation)
    (tail tail' : List Char) :
    (line.failure violation tail).SameCause (line'.failure violation tail') :=
  ⟨rfl, rfl⟩

namespace Usage

/-! ## One line -/

section Line

variable (line line' : SourceLine) {pad : List Char}

theorem place_padded (pad : List Char) (g : Grammar) (x : ScannedToken) :
    Agree (· = ·) (place line g x) (place line' g (x.padded pad)) := by
  unfold place ScannedToken.padded
  cases misplaced? g.last? x.token with
  | some violation => exact .error (line.sameCause line' violation _ _)
  | none =>
    simp only
    split
    · exact .ok rfl
    · exact .ok rfl

theorem foldlM_place_padded (pad : List Char) (xs : List ScannedToken) (g : Grammar) :
    Agree (· = ·) (xs.foldlM (place line) g)
      ((xs.map (·.padded pad)).foldlM (place line') g) := by
  induction xs generalizing g with
  | nil => exact .ok rfl
  | cons x xs ih =>
    rw [List.map_cons, List.foldlM_cons, List.foldlM_cons]
    apply (place_padded line line' pad g x).bind
    rintro g₁ _ rfl
    exact ih g₁

/-- A pad behind a line does not change what is read of it. -/
theorem extend_padded (hpad : IsPad pad) (g : Grammar) (spaced : Bool) (tail : List Char) :
    Agree (· = ·) (extend line g spaced tail) (extend line' g spaced (tail ++ pad)) := by
  have hplace := foldlM_place_padded line line' pad (scan spaced tail).tokens g
  unfold extend
  rw [scan_padded hpad]
  rcases hplace.error_or_ok with ⟨f, f', hread, hread', hcause⟩ | ⟨g₁, _, hread, hread', rfl⟩
  · simp only [Scan.padded, hread, hread']
    exact .error hcause
  · simp only [Scan.padded, hread, hread']
    cases (scan spaced tail).unreadable with
    | some rest => exact .error (line.sameCause line' .unreadable _ _)
    | none => exact .ok rfl

end Line

/-! ## Readings -/

namespace Reading

/-- The readings are the same up to the place of a failure that is pending. -/
structure Agrees (r r' : Reading) : Prop where
  binary : r.binary = r'.binary
  finished : r.finished = r'.finished
  current : r.current = r'.current
  dangling : Option.Rel ParseFailure.SameCause r.dangling r'.dangling

variable {r r' : Reading}

theorem start_agrees (name : List Char) : (start name).Agrees (start name) :=
  ⟨rfl, rfl, rfl, .none⟩

theorem startNext_agrees (h : r.Agrees r') : Agree Agrees r.startNext r'.startNext := by
  obtain ⟨binary, finished, current, dangling⟩ := r
  obtain ⟨binary', finished', current', dangling'⟩ := r'
  obtain ⟨rfl, rfl, rfl, hdangling⟩ := h
  unfold startNext
  cases hdangling with
  | some h => exact .error h
  | none => exact .ok ⟨rfl, rfl, rfl, .none⟩

theorem finish_agrees (h : r.Agrees r') : Agree (· = ·) r.finish r'.finish := by
  obtain ⟨binary, finished, current, dangling⟩ := r
  obtain ⟨binary', finished', current', dangling'⟩ := r'
  obtain ⟨rfl, rfl, rfl, hdangling⟩ := h
  unfold finish
  cases hdangling with
  | some h => exact .error h
  | none => exact .ok rfl

theorem continueWith_agrees (h : r.Agrees r') (line line' : SourceLine) {pad : List Char}
    (hpad : IsPad pad) (spaced : Bool) (tail : List Char) :
    Agree Agrees (r.continueWith line spaced tail)
      (r'.continueWith line' spaced (tail ++ pad)) := by
  have hextend := extend_padded line line' hpad r.current spaced tail
  unfold continueWith
  rw [← h.current]
  rcases hextend.error_or_ok with ⟨f, f', hread, hread', hcause⟩ | ⟨g, _, hread, hread', rfl⟩
  · rw [hread, hread']
    exact .error hcause
  · rw [hread, hread']
    refine .ok ⟨h.binary, h.finished, rfl, ?_⟩
    simp only
    split
    · exact .some (line.sameCause line' .emptyAlternative _ _)
    · exact .none

/-! ## Lines with the same content -/

/-- The lines are blank, or they differ in nothing but the layout around their content. -/
inductive SameContent (s s' : List Char) : Prop
  | blank (h : (indent s).rest = []) (h' : (indent s').rest = [])
  | text {pad : List Char} (hpad : IsPad pad) (h : (indent s).rest ≠ [])
      (h' : (indent s').rest = (indent s).rest ++ pad)

theorem readLine_blank (reading : Option Reading) {line : SourceLine}
    (h : (indent line.text).rest = []) : readLine reading line = .ok reading := by
  simp [readLine, h]

/-- Lines with the same content take readings that agree to readings that agree. -/
theorem readLine_agrees {reading reading' : Option Reading}
    (h : Option.Rel Agrees reading reading') {line line' : SourceLine}
    (hline : SameContent line.text line'.text) :
    Agree (Option.Rel Agrees) (readLine reading line) (readLine reading' line') := by
  cases hline with
  | blank hblank hblank' =>
    rw [readLine_blank _ hblank, readLine_blank _ hblank']
    exact .ok h
  | @text pad hpad hne htail =>
    have hempty : (indent line.text).rest.isEmpty = false := by simpa using hne
    have hempty' : ((indent line.text).rest ++ pad).isEmpty = false := by simp [hne]
    have hsome : ∀ a b : Reading, a.Agrees b → Option.Rel Agrees (some a) (some b) :=
      fun a b hab => .some hab
    simp only [readLine, hempty, hempty', Bool.false_eq_true, if_false, htail,
      binaryName?_padded hpad]
    cases hname : binaryName? (indent line.text).rest with
    | none =>
      cases h with
      | none => exact .error (line.sameCause line' .unnamed _ _)
      | some hr => exact (continueWith_agrees hr line line' hpad true _).map hsome
    | some name =>
      cases h with
      | none => exact (continueWith_agrees (start_agrees _) line line' hpad false _).map hsome
      | @some r r' hr =>
        simp only [Option.map_some, Cut.padded, ← hr.binary]
        split
        · rcases (startNext_agrees hr).error_or_ok with
            ⟨f, f', hread, hread', hcause⟩ | ⟨next, next', hread, hread', hnext⟩
          · rw [hread, hread']
            exact .error hcause
          · rw [hread, hread']
            exact (continueWith_agrees hnext line line' hpad false _).map hsome
        · exact (continueWith_agrees hr line line' hpad true _).map hsome

end Reading

/-! ## Sections -/

theorem indent_behind_pad {pad : List Char} (hpad : IsPad pad) (s : List Char) :
    (indent (pad ++ s)).rest = (indent s).rest := by
  show (pad ++ s).dropWhile isLayout = s.dropWhile isLayout
  exact List.dropWhile_append_of_pos hpad

/-- Layout around a line leaves its content. -/
theorem sameContent_laidOut {lead pad : List Char} (hlead : IsPad lead) (hpad : IsPad pad)
    (line : List Char) : Reading.SameContent line (lead ++ line ++ pad) := by
  have hindent : (indent (lead ++ line ++ pad)).rest = (indent (line ++ pad)).rest := by
    rw [List.append_assoc, indent_behind_pad hlead]
  by_cases hrest : (indent line).rest = []
  · have hblank : IsPad (line ++ pad) := Text.IsPad.append (indent_rest_eq_nil_iff.1 hrest) hpad
    exact .blank hrest (by rw [hindent, indent_rest_eq_nil_iff.2 hblank])
  · refine .text hpad hrest ?_
    rw [hindent, indent_padded hrest]
    rfl

/-- The lines of the first list, with more layout around them and between them. -/
inductive Relaid : List (List Char) → List (List Char) → Prop
  | nil : Relaid [] []
  | line {lead pad : List Char} {ls ls' : List (List Char)} (line : List Char)
      (hlead : IsPad lead) (hpad : IsPad pad) (h : Relaid ls ls') :
      Relaid (line :: ls) ((lead ++ line ++ pad) :: ls')
  | blank {pad : List Char} {ls ls' : List (List Char)} (hpad : IsPad pad)
      (h : Relaid ls ls') : Relaid ls (pad :: ls')

theorem foldlM_relaid {ls ls' : List (List Char)} (h : Relaid ls ls')
    {reading reading' : Option Reading} (hreading : Option.Rel Reading.Agrees reading reading')
    (number number' : Nat) :
    Agree (Option.Rel Reading.Agrees)
      ((SourceLine.numbered number ls).foldlM Reading.readLine reading)
      ((SourceLine.numbered number' ls').foldlM Reading.readLine reading') := by
  induction h generalizing reading reading' number number' with
  | nil => exact .ok hreading
  | line line hlead hpad _ ih =>
    rw [SourceLine.numbered, SourceLine.numbered, List.foldlM_cons, List.foldlM_cons]
    apply (Reading.readLine_agrees hreading (sameContent_laidOut hlead hpad line)).bind
    intro next next' hnext
    exact ih hnext (number + 1) (number' + 1)
  | blank hpad _ ih =>
    rw [SourceLine.numbered, List.foldlM_cons,
      Reading.readLine_blank reading' (indent_rest_eq_nil_iff.2 hpad)]
    exact ih hreading number (number' + 1)

/-- More layout around the lines and between them does not change what a section says. -/
theorem ofLines_relaid {ls ls' : List (List Char)} (h : Relaid ls ls') :
    Agree (· = ·) (ofLines ls) (ofLines ls') := by
  have hfold := foldlM_relaid h .none 1 1
  unfold ofLines
  rw [SourceLine.ofLines_eq_numbered, SourceLine.ofLines_eq_numbered]
  rcases hfold.error_or_ok with ⟨f, f', hread, hread', hcause⟩ | ⟨r, r', hread, hread', hr⟩
  · rw [hread, hread']
    exact .error hcause
  · rw [hread, hread']
    cases hr with
    | none => exact .error (SourceLine.sameCause _ _ .unnamed _ _)
    | some hr => exact Reading.finish_agrees hr

theorem isLine_of_isPad {pad : List Char} (h : IsPad pad) : IsLine pad := by
  constructor
  · intro hmem
    cases h _ hmem
  · intro hlast
    cases h _ (List.mem_of_getLast? hlast)

theorem Relaid.isLine {ls ls' : List (List Char)} (h : Relaid ls ls')
    (hls : ∀ line ∈ ls, IsLine line) : ∀ line ∈ ls', IsLine line := by
  induction h with
  | nil => exact hls
  | line line hlead hpad _ ih =>
    rw [List.forall_mem_cons] at hls ⊢
    exact ⟨((isLine_of_isPad hlead).append hls.1).append (isLine_of_isPad hpad), ih hls.2⟩
  | blank hpad _ ih =>
    rw [List.forall_mem_cons]
    exact ⟨isLine_of_isPad hpad, ih hls⟩

/-- A section can be laid out anew, with space around its lines and lines of layout between
them, and with either line end behind each line.  It is read into the same usage, or it fails
for the same cause. -/
theorem parse_relaid {ls : List (List Char)} (hls : ∀ line ∈ ls, IsLine line)
    {written : List (List Char × LineEnd)} (h : Relaid ls (written.map Prod.fst)) :
    Agree (· = ·) (parse (String.ofList (terminated ls)))
      (parse (String.ofList (ended written))) := by
  rw [parse, parse, String.toList_ofList, String.toList_ofList, lines_terminated hls,
    lines_ended (h.isLine hls)]
  exact ofLines_relaid h

/-- A bar stays pending over a new line of layout, and two blanks before a placeholder stay in
the line.  In the second section the bar is not continued; the failure is the same, further
down. -/
theorem parse_relaid_behind_bar :
    parse "\tp a | \r\n \t\n  -b  C\r\n" =
        .ok ⟨"p", [⟨[.word "a", .bar none none, .option "-b" none, .separator,
          .positional "C"]⟩]⟩ ∧
      ∃ failure, parse "\n\t\r\np a |\t\n p b\n" = .error failure ∧
        failure.SameCause ⟨.emptiness, "empty alternative not allowed", "p a |", "", 1⟩ := by
  have hlead : IsPad "\t".toList := by simp [IsPad, isLayout]
  have hspace : IsPad " ".toList := by simp [IsPad, isLayout]
  have hspaces : IsPad "  ".toList := by simp [IsPad, isLayout]
  have hblank : IsPad " \t".toList := by simp [IsPad, isLayout]
  constructor
  · have hrelaid : Relaid ["p a |".toList, "-b  C".toList]
        ["\tp a | ".toList, " \t".toList, "  -b  C".toList] :=
      .line _ hlead hspace (.blank hblank (.line _ hspaces isPad_nil .nil))
    have hagree := @parse_relaid _ (by decide) [("\tp a | ".toList, .returnAndLineFeed),
      (" \t".toList, .lineFeed), ("  -b  C".toList, .returnAndLineFeed)] hrelaid
    refine hagree.eq_ok_iff.1 ?_
    with_unfolding_all rfl
  · have hrelaid : Relaid ["p a |".toList, "p b".toList]
        [[], "\t".toList, "p a |\t".toList, " p b".toList] :=
      .blank isPad_nil (.blank hlead (.line _ isPad_nil hlead (.line _ hspace isPad_nil .nil)))
    have hread : parse (String.ofList (terminated ["p a |".toList, "p b".toList])) =
        .error ⟨.emptiness, "empty alternative not allowed", "p a |", "", 1⟩ := by
      with_unfolding_all rfl
    have hagree := @parse_relaid _ (by decide) [([], .lineFeed),
      ("\t".toList, .returnAndLineFeed), ("p a |\t".toList, .lineFeed),
      (" p b".toList, .lineFeed)] hrelaid
    rw [hread] at hagree
    rcases hagree.error_or_ok with ⟨f, failure, hf, hfailure, hkind, hreason⟩ | ⟨_, _, hok, _, _⟩
    · obtain rfl := Except.error.inj hf
      exact ⟨failure, hfailure, hkind.symm, hreason.symm⟩
    · cases hok

/-! ## What a section that is read can start and end with -/

namespace Reading

theorem plainEnd_of_continueWith {r r' : Reading} {line : SourceLine} {spaced : Bool}
    {tail : List Char} (h : r.continueWith line spaced tail = .ok r') : PlainEnd tail := by
  unfold continueWith at h
  cases hextend : extend line r.current spaced tail with
  | error failure =>
    rw [hextend] at h
    cases h
  | ok g => exact plainEnd_of_scan (extend_eq_ok_iff.1 hextend).1

theorem plainEnd_of_readLine {reading reading' : Option Reading} {line : SourceLine}
    (h : readLine reading line = .ok reading') : PlainEnd line.text := by
  have htext : (indent line.text).taken ++ (indent line.text).rest = line.text :=
    Cut.run_isOf _ line.text
  have hname : ∀ name, binaryName? (indent line.text).rest = some name →
      PlainEnd name.rest → PlainEnd (indent line.text).rest := by
    intro name hname hplain
    have hcut : name.taken ++ name.rest = (indent line.text).rest := binaryName?_isOf hname
    rw [← hcut]
    exact hplain.behind_tight (tight_of_binaryName? hname)
  have htail : PlainEnd (indent line.text).rest := by
    cases step_of_readLine h with
    | blank hblank =>
      rw [hblank]
      exact isPad_nil.plainEnd
    | first hread hcontinue => exact hname _ hread (plainEnd_of_continueWith hcontinue)
    | next hread _ _ hcontinue => exact hname _ hread (plainEnd_of_continueWith hcontinue)
    | continued _ hcontinue => exact plainEnd_of_continueWith hcontinue
  rw [← htext]
  exact htail.behind_pad (indent_taken_isPad line.text)

theorem plainEnd_of_foldlM {ls : List (List Char)} {reading reading' : Option Reading}
    {number : Nat}
    (h : (SourceLine.numbered number ls).foldlM readLine reading = .ok reading') :
    ∀ line ∈ ls, PlainEnd line := by
  induction ls generalizing reading number with
  | nil => simp
  | cons line ls ih =>
    rw [SourceLine.numbered, List.foldlM_cons] at h
    obtain ⟨next, hfirst, hlater⟩ := exists_of_bind h
    intro l hl
    rcases List.mem_cons.1 hl with rfl | hl
    · exact plainEnd_of_readLine hfirst
    · exact ih hlater l hl

end Reading

section Trimmed

variable {usage : Usage}

theorem exists_foldlM_of_ofLines {ls : List (List Char)} (h : ofLines ls = .ok usage) :
    ∃ reading, (SourceLine.numbered 1 ls).foldlM Reading.readLine none = .ok reading := by
  rw [ofLines, SourceLine.ofLines_eq_numbered] at h
  cases hfold : (SourceLine.numbered 1 ls).foldlM Reading.readLine none with
  | error failure =>
    rw [hfold] at h
    cases h
  | ok reading => exact ⟨reading, rfl⟩

theorem plainEnd_of_ofLines {ls : List (List Char)} (h : ofLines ls = .ok usage) :
    ∀ line ∈ ls, PlainEnd line := by
  obtain ⟨reading, hfold⟩ := exists_foldlM_of_ofLines h
  exact Reading.plainEnd_of_foldlM hfold

theorem head_of_binaryName? {s : List Char} {name : Cut} (h : binaryName? s = some name) :
    ∀ c ∈ s.head?, isBlank c = false := by
  intro c hc
  unfold binaryName? at h
  split at h
  · obtain rfl : '.' = c := by simpa using hc
    decide
  · obtain rfl : '.' = c := by simpa using hc
    decide
  · obtain ⟨d, hd, hstart, _⟩ := exists_head_of_baseName? h
    obtain rfl := Option.some.inj (hd.symm.trans hc)
    exact not_isBlank_of_isBinaryChar (Bool.and_eq_true_iff.1 hstart).1

/-- The first line of a section starts with no blank but layout. -/
theorem head_of_ofLines {line : List Char} {ls : List (List Char)}
    (h : ofLines (line :: ls) = .ok usage) :
    ∀ c ∈ (indent line).rest.head?, isBlank c = false := by
  obtain ⟨reading, hfold⟩ := exists_foldlM_of_ofLines h
  rw [SourceLine.numbered, List.foldlM_cons] at hfold
  obtain ⟨next, hfirst, _⟩ := exists_of_bind hfold
  cases Reading.step_of_readLine hfirst with
  | blank hblank =>
    have hblank : (indent line).rest = [] := hblank
    simp [hblank]
  | first hname _ => exact head_of_binaryName? hname

/-! ## Trimming -/

theorem joinLines_behind (s line : List Char) (ls : List (List Char)) :
    joinLines ((s ++ line) :: ls) = s ++ joinLines (line :: ls) := by
  cases ls with
  | nil => rfl
  | cons next ls => rw [joinLines_cons, joinLines_cons, List.append_assoc]

theorem joinLines_before (ls : List (List Char)) (line s : List Char) :
    joinLines (ls ++ [line ++ s]) = joinLines (ls ++ [line]) ++ s := by
  induction ls with
  | nil => rfl
  | cons first ls ih =>
    cases ls with
    | nil => simp [joinLines]
    | cons next ls =>
      show first ++ '\n' :: joinLines ((next :: ls) ++ [line ++ s]) = _
      rw [ih]
      simp [joinLines]

theorem relaid_append (ls : List (List Char)) {more more' : List (List Char)}
    (h : Relaid more more') : Relaid (ls ++ more) (ls ++ more') := by
  induction ls with
  | nil => exact h
  | cons line ls ih =>
    have h := Relaid.line line isPad_nil isPad_nil ih
    rwa [List.nil_append, List.append_nil] at h

theorem relaid_first {lead : List Char} (hlead : IsPad lead) (line : List Char)
    (ls : List (List Char)) : Relaid (line :: ls) ((lead ++ line) :: ls) := by
  have hrefl := relaid_append ls .nil
  have h := Relaid.line line hlead isPad_nil hrefl
  rwa [List.append_nil, List.append_nil] at h

theorem relaid_last {pad : List Char} (hpad : IsPad pad) (ls : List (List Char))
    (line : List Char) : Relaid (ls ++ [line]) (ls ++ [line ++ pad]) := by
  have h := Relaid.line line isPad_nil hpad .nil
  exact relaid_append ls h

theorem trim_eq {lead s pad : List Char} (hlead : ∀ c ∈ lead, isBlank c = true)
    (hpad : ∀ c ∈ pad, isBlank c = true) (hne : s ≠ [])
    (hhead : ∀ c ∈ s.head?, isBlank c = false) (hend : Tight s) :
    trim (lead ++ (s ++ pad)) = s := by
  have hstart : trimStart (s ++ pad) = s ++ pad := by
    cases s with
    | nil => exact absurd rfl hne
    | cons c s => simp [trimStart, hhead c rfl]
  have hlead : trimStart (lead ++ (s ++ pad)) = trimStart (s ++ pad) :=
    List.dropWhile_append_of_pos hlead
  rw [trim, hlead, hstart, trimEnd_append_of_blank s hpad, hend.trimEnd_eq]

theorem isBlankLine_append (s t : List Char) :
    isBlankLine (s ++ t) = (isBlankLine s && isBlankLine t) :=
  List.all_append

theorem isBlankLine_append_pad {pad : List Char} (hpad : IsPad pad) (s : List Char) :
    isBlankLine (s ++ pad) = isBlankLine s := by
  have hblank : isBlankLine pad = true := List.all_eq_true.2 hpad.isBlank
  rw [isBlankLine_append, hblank, Bool.and_true]

theorem isBlankLine_pad_append {pad : List Char} (hpad : IsPad pad) (s : List Char) :
    isBlankLine (pad ++ s) = isBlankLine s := by
  have hblank : isBlankLine pad = true := List.all_eq_true.2 hpad.isBlank
  rw [isBlankLine_append, hblank, Bool.true_and]

theorem ne_nil_of_isBlankLine {s : List Char} (h : isBlankLine s = false) : s ≠ [] := by
  rintro rfl
  cases h

/-- Trimming the text of a section gives the text of lines that say the same. -/
theorem exists_trimmed {ls : List (List Char)} (h : ofLines ls = .ok usage)
    (hblank : ∀ line ∈ ls, isBlankLine line = false) :
    ∃ ls', ofLines ls' = .ok usage ∧ trim (joinLines ls) = joinLines ls' ∧
      ls'.getLast? ≠ some [] ∧
        ∀ c, (∀ line ∈ ls, c ∉ line) → ∀ line ∈ ls', c ∉ line := by
  cases ls with
  | nil => cases h
  | cons first more =>
    -- The layout before the first line goes.
    obtain ⟨lead, start, rfl, hlead, hhead⟩ : ∃ lead start, first = lead ++ start ∧
        IsPad lead ∧ ∀ c ∈ start.head?, isBlank c = false :=
      ⟨(indent first).taken, (indent first).rest, (Cut.run_isOf _ first).symm,
        indent_taken_isPad first, head_of_ofLines h⟩
    have hsame := (ofLines_relaid (relaid_first hlead start more)).eq_ok_iff.2 h
    have hstart : isBlankLine start = false := by
      rw [← isBlankLine_pad_append hlead]
      exact hblank _ List.mem_cons_self
    have hlines : ∀ line ∈ start :: more, isBlankLine line = false := by
      intro line hline
      rcases List.mem_cons.1 hline with rfl | hline
      · exact hstart
      · exact hblank line (List.mem_cons_of_mem _ hline)
    -- The layout behind the last line goes.
    obtain ⟨init, last, hsplit⟩ : ∃ init last, start :: more = init ++ [last] :=
      ⟨_, _, (List.dropLast_concat_getLast (List.cons_ne_nil start more)).symm⟩
    have hlast : last ∈ start :: more := by simp [hsplit]
    obtain ⟨t, pad, rfl, ht, hpad⟩ := plainEnd_of_ofLines hsame last hlast
    rw [hsplit] at hsame
    have hsame := (ofLines_relaid (relaid_last hpad init t)).eq_ok_iff.2 hsame
    have htext : t ≠ [] := by
      apply ne_nil_of_isBlankLine
      rw [← isBlankLine_append_pad hpad]
      exact hlines _ hlast
    have hbody : joinLines (start :: more) = joinLines (init ++ [t]) ++ pad := by
      rw [hsplit, joinLines_before]
    have hend : joinLines (init ++ [t]) = joinLines (init ++ [[]]) ++ t := by
      rw [← joinLines_before, List.nil_append]
    have hne : joinLines (init ++ [t]) ≠ [] := by simp [hend, htext]
    refine ⟨init ++ [t], hsame, ?_, by simp [htext], fun c hc line hline => ?_⟩
    · rw [joinLines_behind, hbody]
      refine trim_eq hlead.isBlank hpad.isBlank hne ?_ ?_
      · have hfirst : joinLines (start :: more) = start ++ joinLines ([] :: more) := by
          rw [← joinLines_behind, List.append_nil]
        have hheads : start.head? = (joinLines (init ++ [t])).head? := by
          rw [← List.head?_append_of_ne_nil _ (ne_nil_of_isBlankLine hstart), ← hfirst, hbody,
            List.head?_append_of_ne_nil _ hne]
        rwa [← hheads]
      · rw [hend]
        exact ht.append_of_ne_nil htext _
    · have hfree : ∀ line ∈ start :: more, c ∉ line := by
        intro line hline hmem
        rcases List.mem_cons.1 hline with rfl | hline
        · exact hc _ List.mem_cons_self (List.mem_append_right lead hmem)
        · exact hc line (List.mem_cons_of_mem _ hline) hmem
      rw [hsplit] at hfree
      intro hmem
      rcases List.mem_append.1 hline with hline | hline
      · exact hfree line (List.mem_append_left _ hline) hmem
      · obtain rfl := List.mem_singleton.1 hline
        exact hfree (line ++ pad) (by simp) (List.mem_append_left pad hmem)

end Trimmed

end Usage

end Synopsis
