import Synopsis.Proofs.Headings
import Synopsis.Proofs.Sections

/-!
# Where failures point

A failure points into its section (`ParseFailure.PointsInto`): it has the number of a line and
holds this line, and its tail is the end of the line, cut off between two characters.

Each failure of a run over lines is one of a line, at some end of it (`SourceLine.Fails`).  In
an options section it is the line that is being read.  In a usage section it can also be an
earlier one, whose failure was pending, so what is carried from line to line is where a
pending failure comes from (`pending_of_foldlM`).

`failures_point_into_section` is the result for both kinds of sections.
-/

namespace Synopsis

open Lexeme Text

/-! ## Places -/

namespace ParseFailure

/-- The place of the failure is behind `head` in its line.

* The column is the number of bytes of `head`; the tail is no longer than the line, so nothing
  was cut off in the subtraction.
* At the column the line falls apart into `head` and the tail, and there the cursor is put. -/
structure StandsBehind (failure : ParseFailure) (head : List Char) : Prop where
  line : failure.line.toList = head ++ failure.tail.toList
  fits : byteWidth failure.tail.toList ≤ byteWidth failure.line.toList
  column : failure.column = byteWidth head
  cut : splitAtByte? failure.line.toList failure.column = some (head, failure.tail.toList)
  markedLine : failure.markedLine = String.ofList (head ++ cursor :: failure.tail.toList)

/-- The failure points into the section with these lines, or, when there are none, nowhere. -/
structure PointsInto (failure : ParseFailure) (ls : List (List Char)) : Prop where
  nowhere : ls = [] → failure.lineNumber = 0 ∧ failure.line = "" ∧ failure.tail = ""
  somewhere : ls ≠ [] → 1 ≤ failure.lineNumber ∧ failure.lineNumber ≤ ls.length ∧
    ls[failure.lineNumber - 1]? = some failure.line.toList ∧
      ∃ head, failure.StandsBehind head

theorem standsBehind_of_line {failure : ParseFailure} {head : List Char}
    (h : failure.line.toList = head ++ failure.tail.toList) : failure.StandsBehind head := by
  have hwidth : byteWidth failure.line.toList =
      byteWidth head + byteWidth failure.tail.toList := by
    rw [h, byteWidth_append]
  have hcolumn : failure.column = byteWidth head := by
    rw [column, hwidth, Nat.add_sub_cancel]
  have hcut : splitAtByte? failure.line.toList failure.column =
      some (head, failure.tail.toList) := by
    rw [hcolumn, h]
    exact splitAtByte?_append head failure.tail.toList
  refine ⟨h, by omega, hcolumn, hcut, ?_⟩
  simp only [markedLine, hcut]

end ParseFailure

/-- The failure is one of this line, at some end of it. -/
inductive SourceLine.Fails (line : SourceLine) : ParseFailure → Prop
  | before (violation : Violation) {tail : List Char} (h : tail <:+ line.text) :
      Fails line (line.failure violation tail)

/-- A failure of a numbered line points into the lines. -/
theorem SourceLine.Fails.pointsInto {ls : List (List Char)} {line : SourceLine}
    {failure : ParseFailure} (h : line.Fails failure) (hline : line ∈ numbered 1 ls) :
    failure.PointsInto ls := by
  obtain ⟨before, after, rfl, hnumber⟩ := exists_of_mem_numbered hline
  obtain ⟨violation, head, hhead⟩ := h
  constructor
  · intro hnil
    cases before <;> cases hnil
  · intro _
    refine ⟨?_, ?_, ?_, head, ParseFailure.standsBehind_of_line ?_⟩
    · show 1 ≤ line.number
      omega
    · show line.number ≤ _
      rw [hnumber, List.length_append, List.length_cons]
      omega
    · show (before ++ line.text :: after)[line.number - 1]? = some (String.ofList line.text).toList
      rw [hnumber, Nat.add_sub_cancel_left, String.toList_ofList]
      simp
    · simp [SourceLine.failure, hhead]

/-! ## Options sections -/

namespace OptionRecord

theorem pointsInto_of_parse {text : String} {failure : ParseFailure}
    (h : parse text = .error failure) : failure.PointsInto (Text.lines text.toList) := by
  cases (parse_eq_error_iff text failure).1 h with
  | @behind before after line r use hlines hread hopens hleading hstray =>
    have hsuffix : use.rest <:+ line := hleading.rest_suffix.trans ⟨_, Cut.run_isOf _ line⟩
    rw [hlines]
    exact SourceLine.Fails.pointsInto (.before _ hsuffix)
      (SourceLine.mem_numbered 1 before line after)

end OptionRecord

/-! ## Usage sections -/

namespace Usage

theorem unreadable_suffix {spaced : Bool} {s rest : List Char}
    (h : (scan spaced s).unreadable = some rest) : rest <:+ s := by
  induction spaced, s using scan_induction with
  | layout spaced s hrest =>
    rw [scan_of_layout hrest] at h
    cases h
  | unreadable spaced s hrest hread =>
    rw [scan_of_unreadable hrest hread] at h
    obtain rfl := Option.some.inj h
    exact ⟨_, Cut.run_isOf _ s⟩
  | read spaced s token later hread ih =>
    have hs : (indent s).rest <:+ s := ⟨_, Cut.run_isOf _ s⟩
    rw [scan_of_read spaced hread] at h
    exact (ih h).trans ((Token.read?_eq_some_iff.1 hread).suffix.trans hs)

section Line

variable {line : SourceLine} {g : Grammar} {failure : ParseFailure}

theorem fails_of_place {x : ScannedToken} (h : place line g x = .error failure)
    (hx : x.tail <:+ line.text) : line.Fails failure := by
  unfold place at h
  split at h
  · obtain rfl := Except.error.inj h
    exact .before _ hx
  · split at h <;> cases h

theorem fails_of_foldlM_place {xs : List ScannedToken}
    (h : xs.foldlM (place line) g = .error failure) (hxs : ∀ x ∈ xs, x.tail <:+ line.text) :
    line.Fails failure := by
  induction xs generalizing g with
  | nil => cases h
  | cons x xs ih =>
    rw [List.foldlM_cons] at h
    cases hplace : place line g x with
    | error cause =>
      rw [hplace] at h
      obtain rfl := Except.error.inj h
      exact fails_of_place hplace (hxs x List.mem_cons_self)
    | ok g' =>
      rw [hplace] at h
      exact ih h fun y hy => hxs y (List.mem_cons_of_mem x hy)

theorem fails_of_extend {spaced : Bool} {tail : List Char}
    (h : extend line g spaced tail = .error failure) (htail : tail <:+ line.text) :
    line.Fails failure := by
  unfold extend at h
  cases hplace : (scan spaced tail).tokens.foldlM (place line) g with
  | error cause =>
    simp only [hplace] at h
    obtain rfl := Except.error.inj h
    exact fails_of_foldlM_place hplace fun x hx => (tail_suffix_of_mem_scan x hx).trans htail
  | ok g' =>
    simp only [hplace] at h
    split at h
    · rename_i rest hrest
      obtain rfl := Except.error.inj h
      exact .before _ ((unreadable_suffix hrest).trans htail)
    · cases h

end Line

namespace Reading

/-- The failure to report unless the form that is being read is continued. -/
def pending (reading : Option Reading) : Option ParseFailure :=
  reading.bind Reading.dangling

section Line

variable {line : SourceLine} {r : Reading} {spaced : Bool} {tail : List Char}

theorem fails_of_continueWith {failure : ParseFailure}
    (h : r.continueWith line spaced tail = .error failure) (htail : tail <:+ line.text) :
    line.Fails failure := by
  unfold continueWith at h
  cases hextend : extend line r.current spaced tail with
  | error cause =>
    rw [hextend] at h
    obtain rfl := Except.error.inj h
    exact fails_of_extend hextend htail
  | ok g =>
    rw [hextend] at h
    cases h

/-- What is pending behind a line is that the line ends with a bar. -/
theorem fails_of_dangling {r' : Reading} (h : r.continueWith line spaced tail = .ok r')
    {failure : ParseFailure} (hdangling : r'.dangling = some failure) : line.Fails failure := by
  unfold continueWith at h
  cases hextend : extend line r.current spaced tail with
  | error cause =>
    rw [hextend] at h
    cases h
  | ok g =>
    simp only [hextend] at h
    obtain rfl := Except.ok.inj h
    simp only at hdangling
    split at hdangling
    · obtain rfl := Option.some.inj hdangling
      exact .before _ List.nil_suffix
    · cases hdangling

end Line

variable {reading reading' : Option Reading} {failure : ParseFailure}

theorem pending_of_readLine {line : SourceLine} (h : readLine reading line = .ok reading')
    (hpending : pending reading' = some failure) :
    line.Fails failure ∨ pending reading = some failure := by
  cases step_of_readLine h with
  | blank => exact Or.inr hpending
  | first _ hread => exact Or.inl (fails_of_dangling hread hpending)
  | next _ _ _ hread => exact Or.inl (fails_of_dangling hread hpending)
  | continued _ hread => exact Or.inl (fails_of_dangling hread hpending)

/-- A failure that is pending behind some lines is one of them, or was pending before. -/
theorem pending_of_foldlM {lines : List SourceLine}
    (h : lines.foldlM readLine reading = .ok reading')
    (hpending : pending reading' = some failure) :
    (∃ line ∈ lines, line.Fails failure) ∨ pending reading = some failure := by
  induction lines generalizing reading with
  | nil =>
    obtain rfl := Except.ok.inj h
    exact Or.inr hpending
  | cons line lines ih =>
    rw [List.foldlM_cons] at h
    obtain ⟨next, hfirst, hlater⟩ := exists_of_bind h
    rcases ih hlater with ⟨later, hmem, hfails⟩ | hnext
    · exact Or.inl ⟨later, List.mem_cons_of_mem line hmem, hfails⟩
    · rcases pending_of_readLine hfirst hnext with hfails | hpending
      · exact Or.inl ⟨line, List.mem_cons_self, hfails⟩
      · exact Or.inr hpending

/-- A line is refused for a failure of its own, or for the one that is pending. -/
theorem fails_or_pending_of_readLine {line : SourceLine}
    (h : readLine reading line = .error failure) :
    line.Fails failure ∨ pending reading = some failure := by
  have htail : (indent line.text).rest <:+ line.text := ⟨_, Cut.run_isOf _ line.text⟩
  have hname : ∀ name, binaryName? (indent line.text).rest = some name →
      name.rest <:+ line.text := fun name hname =>
    List.IsSuffix.trans ⟨name.taken, binaryName?_isOf hname⟩ htail
  have hmap : ∀ {r : Reading} {spaced : Bool} {tail : List Char}, tail <:+ line.text →
      (r.continueWith line spaced tail).map some = .error failure → line.Fails failure := by
    intro r spaced tail hsuffix hread
    exact fails_of_continueWith (map_eq_error_iff.1 hread) hsuffix
  simp only [readLine] at h
  split at h
  · cases h
  · cases hread : binaryName? (indent line.text).rest with
    | none =>
      rw [hread] at h
      cases reading with
      | none =>
        obtain rfl := Except.error.inj h
        exact Or.inl (.before _ htail)
      | some r => exact Or.inl (hmap htail h)
    | some name =>
      rw [hread] at h
      cases reading with
      | none => exact Or.inl (hmap (hname name hread) h)
      | some r =>
        simp only at h
        split at h
        · unfold startNext at h
          cases hdangling : r.dangling with
          | some cause =>
            simp only [hdangling] at h
            obtain rfl := Except.error.inj h
            exact Or.inr hdangling
          | none =>
            simp only [hdangling] at h
            exact Or.inl (hmap (hname name hread) h)
        · exact Or.inl (hmap htail h)

end Reading

theorem unnamedFailure_pointsInto (ls : List (List Char)) :
    (unnamedFailure ls).PointsInto ls := by
  rcases List.eq_nil_or_concat ls with rfl | ⟨before, line, rfl⟩
  · exact ⟨fun _ => ⟨rfl, rfl, rfl⟩, fun hne => absurd rfl hne⟩
  · rw [List.concat_eq_append]
    have hmem := SourceLine.mem_numbered 1 before line []
    have hfails : SourceLine.Fails ⟨line, 1 + before.length⟩
        (unnamedFailure (before ++ [line])) := by
      have hlast : unnamedFailure (before ++ [line]) =
          SourceLine.failure ⟨line, 1 + before.length⟩ .unnamed [] := by
        simp [unnamedFailure, Nat.add_comm]
      rw [hlast]
      exact .before _ List.nil_suffix
    exact hfails.pointsInto hmem

theorem pointsInto_of_parse {text : String} {failure : ParseFailure}
    (h : parse text = .error failure) : failure.PointsInto (Text.lines text.toList) := by
  have hnumbered : ∀ {ls more : List (List Char)} {line : SourceLine},
      line ∈ SourceLine.numbered 1 ls → line ∈ SourceLine.numbered 1 (ls ++ more) := by
    intro ls more line hline
    rw [SourceLine.numbered_append]
    exact List.mem_append_left _ hline
  rw [parse, ofLines, SourceLine.ofLines_eq_numbered] at h
  cases hfold : (SourceLine.numbered 1 (Text.lines text.toList)).foldlM Reading.readLine none with
  | error cause =>
    rw [hfold] at h
    obtain rfl := Except.error.inj h
    obtain ⟨before, line, after, reached, hlines, hbefore, hline⟩ :=
      SourceLine.foldlM_eq_error_iff.1 hfold
    rw [hlines]
    rcases Reading.fails_or_pending_of_readLine hline with hfails | hpending
    · exact hfails.pointsInto (SourceLine.mem_numbered 1 before line after)
    · rcases Reading.pending_of_foldlM hbefore hpending with ⟨earlier, hmem, hfails⟩ | hnone
      · exact hfails.pointsInto (hnumbered hmem)
      · cases hnone
  | ok reading =>
    rw [hfold] at h
    cases reading with
    | none =>
      obtain rfl := Except.error.inj h
      exact unnamedFailure_pointsInto _
    | some r =>
      simp only [Reading.finish] at h
      cases hdangling : r.dangling with
      | none =>
        rw [hdangling] at h
        cases h
      | some cause =>
        rw [hdangling] at h
        obtain rfl := Except.error.inj h
        rcases Reading.pending_of_foldlM hfold hdangling with ⟨line, hmem, hfails⟩ | hnone
        · exact hfails.pointsInto hmem
        · cases hnone

end Usage

/-! ## Both sections -/

/-- Every failure to read a section points into it. -/
theorem failures_point_into_section (text : String) {failure : ParseFailure}
    (h : Usage.parse text = .error failure ∨ OptionRecord.parse text = .error failure) :
    failure.PointsInto (Text.lines text.toList) := by
  rcases h with h | h
  · exact Usage.pointsInto_of_parse h
  · exact OptionRecord.pointsInto_of_parse h

/-- A bar at the end of a line is pending over a blank line, until the next form starts; the
failure points back behind it.  The lines have characters of two bytes. -/
theorem failures_point_behind_umlauts :
    (Usage.parse "é ü |\n\né b" =
        .error ⟨.emptiness, "empty alternative not allowed", "é ü |", "", 1⟩ ∧
      ParseFailure.PointsInto ⟨.emptiness, "empty alternative not allowed", "é ü |", "", 1⟩
        ["é ü |".toList, [], "é b".toList]) ∧
    ∃ failure, OptionRecord.parse "\n -é, -ü;b" = .error failure ∧
      failure.PointsInto [[], " -é, -ü;b".toList] := by
  have husage : Usage.parse "é ü |\n\né b" =
      .error ⟨.emptiness, "empty alternative not allowed", "é ü |", "", 1⟩ := by
    with_unfolding_all rfl
  have hoptions : OptionRecord.parse "\n -é, -ü;b" = .error
      (SourceLine.failure ⟨" -é, -ü;b".toList, 2⟩ .malformedOption ";b".toList) := by
    with_unfolding_all rfl
  exact ⟨⟨husage, failures_point_into_section _ (Or.inl husage)⟩,
    _, hoptions, failures_point_into_section _ (Or.inr hoptions)⟩

end Synopsis
