import Synopsis.Proofs.Blocks
import Synopsis.Proofs.Trimming

/-!
# Which usage sections are read

A section is read exactly when it names its program and all its blocks are accepted.  When it
is not, the first entry of the `failures` of its blocks is reported, or that the name is
missing (`parse_exact`).

The run stops at the first failure, and holds one back at a bar that ends a line; both are
gone in the list.  So each step of the run is compared with the head of the list: a token
(`failure?_foldlM_place`), a line (`failure?_extend`), the lines of a block
(`failure?_readParts`) and the blocks one behind the other (`failure?_readBlocks`).
-/

namespace Synopsis

open Lexeme Text

namespace Usage

/-! ## The first failure of a run -/

/-- The failure of a run, if it fails. -/
def failure? {α : Type} : Except ParseFailure α → Option ParseFailure
  | .error failure => some failure
  | .ok _ => none

theorem failure?_eq_none_iff {α : Type} {x : Except ParseFailure α} :
    failure? x = none ↔ ∃ a, x = .ok a := by
  cases x <;> simp [failure?]

theorem failure?_eq_some_iff {α : Type} {x : Except ParseFailure α} {failure : ParseFailure} :
    failure? x = some failure ↔ x = .error failure := by
  cases x <;> simp [failure?]

section Line

variable (line : SourceLine) (g : Grammar)

/-- Placing the tokens of a line fails at the first that is misplaced. -/
theorem failure?_foldlM_place (xs : List ScannedToken) :
    failure? (xs.foldlM (place line) g) = (misplacements line g.last? xs).head? := by
  induction xs generalizing g with
  | nil => rfl
  | cons x xs ih =>
    rw [List.foldlM_cons, misplacements]
    cases hfit : misplaced? g.last? x.token with
    | some violation =>
      have hplace : place line g x = .error (line.failure violation x.tail) := by
        simp [place, hfit]
      rw [hplace]
      rfl
    | none =>
      have hplace : place line g x = .ok (g.append (laidOne g.last? x)) :=
        place_eq_ok_iff.2 ⟨hfit, rfl⟩
      rw [hplace]
      show failure? (xs.foldlM (place line) (g.append (laidOne g.last? x))) = _
      rw [ih, last?_append_laidOne]
      rfl

end Line

theorem failure?_extend (part : Part) (g : Grammar) :
    failure? (extend part.line g part.spaced part.tail) = (part.failures g.last?).head? := by
  rw [Part.failures, List.head?_append, ← failure?_foldlM_place]
  simp only [extend, Part.scan]
  cases (Usage.scan part.spaced part.tail).tokens.foldlM (place part.line) g with
  | error failure => rfl
  | ok g' => cases (Usage.scan part.spaced part.tail).unreadable <;> rfl

namespace Reading

/-! ## The lines of a block -/

/-- Reads what a line has of the current form. -/
def readPart (r : Reading) (part : Part) : Except ParseFailure Reading :=
  r.continueWith part.line part.spaced part.tail

/-- Reads what some lines have of the current form. -/
def readParts (r : Reading) (parts : List Part) : Except ParseFailure Reading :=
  parts.foldlM readPart r

theorem failure?_readPart (r : Reading) (part : Part) :
    failure? (r.readPart part) = (part.failures r.current.last?).head? := by
  rw [← failure?_extend, readPart]
  unfold continueWith
  cases extend part.line r.current part.spaced part.tail <;> rfl

/-- What a line leaves that is read into a form. -/
theorem readPart_ok {r r' : Reading} {part : Part} (h : r.readPart part = .ok r') :
    r'.binary = r.binary ∧ r'.current.last? = lastOf r.current.last? part.scan.tokens ∧
      r'.dangling = endFailure? part.line r'.current.last? := by
  unfold readPart continueWith at h
  cases hextend : extend part.line r.current part.spaced part.tail with
  | error failure =>
    rw [hextend] at h
    cases h
  | ok g =>
    rw [hextend] at h
    obtain ⟨-, -, rfl⟩ := extend_eq_ok_iff.1 hextend
    obtain rfl := Except.ok.inj h
    refine ⟨rfl, last?_append_laid _ _, rfl⟩

theorem failure?_readParts (r : Reading) (parts : List Part) :
    failure? (r.readParts parts) = (insideFailures r.current.last? parts).head? := by
  induction parts generalizing r with
  | nil => rfl
  | cons part more ih =>
    rw [insideFailures, List.head?_append, ← failure?_readPart, readParts, List.foldlM_cons]
    cases hread : r.readPart part with
    | error failure => rfl
    | ok next =>
      rw [← (readPart_ok hread).2.1]
      exact ih next

/-- What the lines of a block leave that are read into a form. -/
theorem readParts_ok {r r' : Reading} {parts : List Part} (h : r.readParts parts = .ok r') :
    r'.binary = r.binary ∧
      r'.current.last? = lastOf r.current.last? (parts.flatMap (·.scan.tokens)) ∧
        ∀ last ∈ parts.getLast?, r'.dangling = endFailure? last.line r'.current.last? := by
  induction parts generalizing r with
  | nil =>
    obtain rfl := Except.ok.inj h
    exact ⟨rfl, rfl, nofun⟩
  | cons part more ih =>
    rw [readParts, List.foldlM_cons] at h
    obtain ⟨next, hread, hmore⟩ := exists_of_bind h
    obtain ⟨hbinary, hlast, hdangling⟩ := readPart_ok hread
    obtain ⟨hbinary', hlast', hdangling'⟩ := ih hmore
    refine ⟨hbinary'.trans hbinary, ?_, ?_⟩
    · rw [hlast', hlast, List.flatMap_cons, lastOf_append]
    · intro last hmem
      cases more with
      | nil =>
        obtain rfl : part = last := by simpa using hmem
        obtain rfl := Except.ok.inj hmore
        exact hdangling
      | cons second more =>
        rw [List.getLast?_cons_cons] at hmem
        exact hdangling' last hmem

/-- When a block has been read, the run fails for what is wrong at its end, and goes on if
nothing is. -/
theorem failure?_block {α : Type} {r : Reading} {block : List Part} (hopened : r.current = .empty)
    (hne : block ≠ []) {next : Reading → Except ParseFailure α} {later : Option ParseFailure}
    (hnext : ∀ r' : Reading, r'.binary = r.binary → failure? (next r') = r'.dangling.or later) :
    failure? (r.readParts block >>= next) = (failures block).head?.or later := by
  obtain ⟨last, hmem⟩ : ∃ last, block.getLast? = some last :=
    ⟨_, List.getLast?_eq_some_getLast hne⟩
  have hinside : failure? (r.readParts block) = (insideFailures none block).head? := by
    rw [failure?_readParts, hopened]
    rfl
  rw [failures, List.head?_append, ← hinside]
  cases hread : r.readParts block with
  | error failure => rfl
  | ok r' =>
    obtain ⟨hbinary, hlast, hdangling⟩ := readParts_ok hread
    have hlast : r'.current.last? = (block.flatMap Part.tokens).getLast? := by
      rw [hlast, hopened, lastOf_eq, map_flatMap_tokens]
      exact Option.or_none
    show failure? (next r') = _
    rw [hnext r' hbinary, hdangling last hmem, hlast, hmem, Option.bind_some]
    cases endFailure? last.line (block.flatMap Part.tokens).getLast? <;> rfl

/-! ## The blocks one behind the other -/

/-- Before the first form, a line has to start with a name. -/
theorem readLine_unnamed {line : SourceLine} (hfilled : (indent line.text).rest ≠ [])
    (hname : startName? line = none) :
    readLine none line = .error (line.failure .unnamed (indent line.text).rest) := by
  have hempty : (indent line.text).rest.isEmpty = false := by simpa using hfilled
  have hcut : binaryName? (indent line.text).rest = none := Option.map_eq_none_iff.1 hname
  simp [readLine, hempty, hcut]

/-- A line that starts with a name opens a form, if nothing is left to be reported. -/
theorem readLine_opening {line : SourceLine} {name : List Char}
    (hname : startName? line = some name) :
    readLine none line = ((start name).readPart (.opening line)).map some ∧
      ∀ r : Reading, r.binary = name →
        readLine (some r) line =
          r.startNext >>= fun next => (next.readPart (.opening line)).map some := by
  obtain ⟨cut, hcut, rfl⟩ := Option.map_eq_some_iff.1 hname
  have hempty : (indent line.text).rest.isEmpty = false := by
    simpa using ne_nil_of_binaryName? hcut
  constructor
  · simp [readLine, hempty, hcut, readPart, Part.opening]
  · intro r hsame
    simp only [readLine, hempty, hcut, hsame, Bool.false_eq_true, if_false, if_true]
    cases r.startNext with
    | error failure => rfl
    | ok next => simp [readPart, Part.opening, hcut, bind, Except.bind]

/-- Any other line that is not blank goes on with the form before it. -/
theorem readLine_further {r : Reading} {line : SourceLine}
    (hfilled : (indent line.text).rest ≠ []) (hname : startName? line ≠ some r.binary) :
    readLine (some r) line = (r.readPart (.further line)).map some := by
  have hempty : (indent line.text).rest.isEmpty = false := by simpa using hfilled
  cases hcut : binaryName? (indent line.text).rest with
  | none => simp [readLine, hempty, hcut, readPart, Part.further]
  | some cut =>
    have hother : cut.taken ≠ r.binary := by
      intro hsame
      exact hname (by simp [startName?, hcut, hsame])
    simp [readLine, hempty, hcut, hother, readPart, Part.further]

theorem foldlM_further {r : Reading} {lines : List SourceLine}
    (hfilled : ∀ line ∈ lines, (indent line.text).rest ≠ [])
    (hname : ∀ line ∈ lines, startName? line ≠ some r.binary) :
    lines.foldlM readLine (some r) = (r.readParts (lines.map .further)).map some := by
  induction lines generalizing r with
  | nil => rfl
  | cons line lines ih =>
    rw [List.forall_mem_cons] at hfilled hname
    rw [List.foldlM_cons, readLine_further hfilled.1 hname.1, List.map_cons, readParts,
      List.foldlM_cons]
    cases hread : r.readPart (.further line) with
    | error failure => rfl
    | ok next =>
      refine ih hfilled.2 ?_
      rw [(readPart_ok hread).1]
      exact hname.2

/-- What is read when the lines are at their end. -/
def close (missing : ParseFailure) : Option Reading → Except ParseFailure Usage
  | none => .error missing
  | some r => r.finish

theorem failure?_finish (r : Reading) : failure? r.finish = r.dangling := by
  unfold finish
  cases r.dangling <;> rfl

theorem failure?_startNext {α : Type} {r : Reading} {next : Reading → Except ParseFailure α}
    {later : Option ParseFailure}
    (hnext : ∀ r' : Reading, r'.binary = r.binary → r'.current = .empty →
      failure? (next r') = later) :
    failure? (r.startNext >>= next) = r.dangling.or later := by
  unfold startNext
  cases r.dangling with
  | some failure => rfl
  | none => exact hnext _ rfl rfl

/-- The lines of a block are read behind its first one, and then the lines behind it. -/
theorem readBlock_append (missing : ParseFailure) (r : Reading) (first : SourceLine)
    {more : List SourceLine} (rest : List SourceLine)
    (hfilled : ∀ line ∈ more, (indent line.text).rest ≠ [])
    (hname : ∀ line ∈ more, startName? line ≠ some r.binary) :
    ((r.readPart (.opening first)).map some >>= fun reading =>
        (more ++ rest).foldlM readLine reading >>= close missing) =
      r.readParts (.opening first :: more.map .further) >>= fun r' =>
        rest.foldlM readLine (some r') >>= close missing := by
  rw [readParts, List.foldlM_cons]
  cases hread : r.readPart (.opening first) with
  | error failure => rfl
  | ok next =>
    have hmore := foldlM_further (r := next) hfilled ((readPart_ok hread).1 ▸ hname)
    show (more ++ rest).foldlM readLine (some next) >>= close missing =
      next.readParts (more.map .further) >>= fun r' => _
    rw [List.foldlM_append, hmore]
    cases next.readParts (more.map .further) with
    | error failure => rfl
    | ok r' => rfl

/-- Block by block, reading fails for the first thing that is wrong. -/
theorem failure?_readBlocks (missing : ParseFailure) {r : Reading} (hopened : r.current = .empty)
    (first : SourceLine) {later : List SourceLine}
    (hfilled : ∀ line ∈ later, (indent line.text).rest ≠ []) :
    failure? ((r.readPart (.opening first)).map some >>= fun reading =>
        later.foldlM readLine reading >>= close missing) =
      ((blocksAt (some r.binary) (first :: later)).flatMap failures).head? := by
  generalize hn : later.length = n
  induction n using Nat.strongRecOn generalizing r first later with
  | ind n ih =>
    subst hn
    obtain ⟨more, rest, rfl, hmore, hrest, hblocks⟩ :=
      blocksAt_cons (some r.binary) first later
    rw [hblocks, List.flatMap_cons, List.head?_append]
    rw [List.forall_mem_append] at hfilled
    rw [readBlock_append missing r first rest hfilled.1 hmore]
    refine failure?_block hopened (List.cons_ne_nil _ _) ?_
    intro r' hbinary
    cases rest with
    | nil =>
      rw [blocksAt]
      exact (failure?_finish r').trans Option.or_none.symm
    | cons next later =>
      have hopens : startName? next = some r.binary := hrest next rfl
      rw [List.foldlM_cons, (readLine_opening hopens).2 r' hbinary, bind_assoc, bind_assoc]
      refine failure?_startNext ?_
      intro r'' hbinary' hopened'
      have hlater : ∀ line ∈ later, (indent line.text).rest ≠ [] :=
        fun line hline => hfilled.2 line (List.mem_cons_of_mem next hline)
      rw [← hbinary, ← hbinary']
      exact ih later.length (by simp; omega) hopened' next hlater rfl

/-- Lines that are blank are passed over. -/
theorem foldlM_filter (lines : List SourceLine) (reading : Option Reading) :
    (lines.filter (!·.text.all isLayout)).foldlM readLine reading =
      lines.foldlM readLine reading := by
  induction lines generalizing reading with
  | nil => rfl
  | cons line lines ih =>
    rw [List.foldlM_cons]
    cases hblank : line.text.all isLayout with
    | true =>
      have hrest : (indent line.text).rest = [] :=
        indent_rest_eq_nil_iff.2 (List.all_eq_true.1 hblank)
      rw [List.filter_cons_of_neg (by simp [hblank]), readLine_blank reading hrest, ih]
      rfl
    | false =>
      rw [List.filter_cons_of_pos (by simp [hblank]), List.foldlM_cons]
      exact congrArg _ (funext ih)

end Reading

/-! ## The whole section -/

theorem rest_ne_nil_of_mem_filled (ls : List (List Char)) :
    ∀ line ∈ filled ls, (indent line.text).rest ≠ [] := by
  intro line hline hrest
  have hfilled := (List.mem_filter.1 hline).2
  have hpad := List.all_eq_true.2 (indent_rest_eq_nil_iff.1 hrest)
  rw [hpad] at hfilled
  cases hfilled

theorem ofLines_eq (ls : List (List Char)) :
    ofLines ls =
      (filled ls).foldlM Reading.readLine none >>= Reading.close (unnamedFailure ls) := by
  rw [ofLines, filled, Reading.foldlM_filter]
  cases (SourceLine.ofLines ls).foldlM Reading.readLine none with
  | error failure => rfl
  | ok reading => cases reading <;> rfl

/-- A section that names its program fails for the first thing that is wrong with its blocks,
and any other section for the name. -/
theorem failure?_parse (text : String) :
    (Named (blocks text) → failure? (parse text) = ((blocks text).flatMap failures).head?) ∧
      (¬Named (blocks text) → failure? (parse text) = some (missingName text)) := by
  have hfilled := rest_ne_nil_of_mem_filled (Text.lines text.toList)
  rw [parse, ofLines_eq]
  unfold blocks missingName
  generalize filled (Text.lines text.toList) = lines at hfilled
  cases lines with
  | nil =>
    refine ⟨fun hnamed => ?_, fun _ => rfl⟩
    obtain ⟨block, hblock, -⟩ := hnamed
    cases hblock
  | cons first later =>
    rw [List.forall_mem_cons] at hfilled
    have hfirst : Named (blocksAt (startName? first) (first :: later)) ↔
        (startName? first).isSome := by
      rw [blocksAt]
      simp [Named, Part.opening]
    show (Named (blocksAt (startName? first) (first :: later)) →
        _ = ((blocksAt (startName? first) (first :: later)).flatMap failures).head?) ∧
      (¬Named (blocksAt (startName? first) (first :: later)) → _)
    rw [hfirst]
    cases hname : startName? first with
    | none =>
      refine ⟨fun hsome => absurd hsome (by simp), fun _ => ?_⟩
      rw [List.foldlM_cons, Reading.readLine_unnamed hfilled.1 hname]
      rfl
    | some name =>
      refine ⟨fun _ => ?_, fun hnone => absurd rfl hnone⟩
      have hblocks := Reading.failure?_readBlocks (unnamedFailure (Text.lines text.toList))
        (r := Reading.start name) rfl first hfilled.2
      rw [List.foldlM_cons, (Reading.readLine_opening hname).1, bind_assoc]
      exact hblocks

/-- All sections that are read, and what is reported for the others. -/
theorem parse_exact (text : String) :
    ((∃ usage, parse text = .ok usage) ↔
      Named (blocks text) ∧ ∀ block ∈ blocks text, Accepted block) ∧
    (∀ failure, parse text = .error failure ↔
      ¬Named (blocks text) ∧ failure = missingName text ∨
        Named (blocks text) ∧ ((blocks text).flatMap failures).head? = some failure) ∧
    (missingName text).kind = .missingBinaryName ∧
      ∀ block ∈ blocks text, ∀ failure ∈ failures block,
        failure.kind = .emptiness ∨ failure.kind = .lexical ∧ ∃ part ∈ block, ∃ rest,
          part.scan.unreadable = some rest ∧ failure = part.line.failure .unreadable rest := by
  obtain ⟨hnamed, hunnamed⟩ := failure?_parse text
  refine ⟨?accepted, ?reported, ?missing, ?kinds⟩
  case accepted =>
    rw [← failure?_eq_none_iff]
    by_cases h : Named (blocks text)
    · have hnone : ((blocks text).flatMap failures).head? = none ↔
          ∀ block ∈ blocks text, Accepted block := by
        simp only [List.head?_eq_none_iff, List.flatMap_eq_nil_iff, failures_eq_nil_iff]
      rw [hnamed h, hnone]
      exact (and_iff_right h).symm
    · rw [hunnamed h]
      simp [h]
  case reported =>
    intro failure
    rw [← failure?_eq_some_iff]
    by_cases h : Named (blocks text)
    · simp [h, hnamed h]
    · simp [h, hunnamed h, eq_comm]
  case missing =>
    unfold missingName
    split <;> rfl
  case kinds =>
    intro block _ failure hmem
    exact kind_of_mem_failures hmem

/-- The bar at the end of the first block is reported, since it is read before the others. -/
example : ((blocks "p a |\n\np ()\n || b").flatMap failures).map
      (fun failure => (failure.reason, failure.tail, failure.lineNumber)) =
    [("empty alternative not allowed", "", 1), ("empty groups not allowed", ")", 3),
      ("empty alternative not allowed", "| b", 4)] := by
  with_unfolding_all rfl

end Usage

end Synopsis
