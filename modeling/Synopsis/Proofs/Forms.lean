import Synopsis.Proofs.Acceptance

/-!
# The forms of a section and their blocks

A section that is read has one form for each of its blocks, and the form has the tokens of the
block (`form`).  The step is a line, which lays its tokens out behind the current form
(`readPart_laid`).  The lines of a block do the same one behind the other
(`readParts_laid`), and the blocks add one form after the other (`readBlocks_ok`).
`forms_of_parse` is the result for whole sections.
-/

namespace Synopsis

open Lexeme Text

namespace Usage

/-- The form that is read from a block. -/
def form (block : List Part) : Grammar :=
  ⟨laid none (block.flatMap (·.scan.tokens))⟩

namespace Reading

variable {r r' : Reading}

theorem readPart_laid {part : Part} (h : r.readPart part = .ok r') :
    r'.finished = r.finished ∧
      r'.current = r.current.append (laid r.current.last? part.scan.tokens) := by
  unfold readPart continueWith at h
  cases hextend : extend part.line r.current part.spaced part.tail with
  | error failure =>
    rw [hextend] at h
    cases h
  | ok g =>
    rw [hextend] at h
    obtain ⟨-, -, rfl⟩ := extend_eq_ok_iff.1 hextend
    obtain rfl := Except.ok.inj h
    exact ⟨rfl, rfl⟩

/-- Lines that are read lay their tokens out behind the current form. -/
theorem readParts_laid {parts : List Part} (h : r.readParts parts = .ok r') :
    r'.finished = r.finished ∧ r'.current =
      r.current.append (laid r.current.last? (parts.flatMap (·.scan.tokens))) := by
  induction parts generalizing r with
  | nil =>
    obtain rfl := Except.ok.inj h
    exact ⟨rfl, by simp [laid, Grammar.append]⟩
  | cons part more ih =>
    rw [readParts, List.foldlM_cons] at h
    obtain ⟨next, hread, hmore⟩ := exists_of_bind h
    obtain ⟨hfinished, hcurrent⟩ := readPart_laid hread
    obtain ⟨hfinished', hcurrent'⟩ := ih hmore
    refine ⟨hfinished'.trans hfinished, ?_⟩
    rw [hcurrent', (readPart_ok hread).2.1, hcurrent, List.flatMap_cons, laid_append]
    simp [Grammar.append]

theorem readBlock_ok {block : List Part} (hopened : r.current = .empty)
    (h : r.readParts block = .ok r') :
    r'.finished = r.finished ∧ r'.current = form block := by
  obtain ⟨hfinished, hcurrent⟩ := readParts_laid h
  refine ⟨hfinished, ?_⟩
  rw [hcurrent, hopened]
  rfl

theorem startNext_ok (h : r.startNext = .ok r') :
    r' = ⟨r.binary, r.finished ++ [r.current], .empty, none⟩ := by
  unfold startNext at h
  cases hdangling : r.dangling with
  | some failure =>
    rw [hdangling] at h
    cases h
  | none =>
    rw [hdangling] at h
    exact (Except.ok.inj h).symm

theorem finish_ok {usage : Usage} (h : r.finish = .ok usage) :
    usage = ⟨String.ofList r.binary, r.finished ++ [r.current]⟩ := by
  unfold finish at h
  cases hdangling : r.dangling with
  | some failure =>
    rw [hdangling] at h
    cases h
  | none =>
    rw [hdangling] at h
    exact (Except.ok.inj h).symm

/-- Block by block, reading adds one form after the other. -/
theorem readBlocks_ok {missing : ParseFailure} {usage : Usage} (hopened : r.current = .empty)
    {first : SourceLine} {later : List SourceLine}
    (hfilled : ∀ line ∈ later, (indent line.text).rest ≠ [])
    (h : ((r.readPart (.opening first)).map some >>= fun reading =>
      later.foldlM readLine reading >>= close missing) = .ok usage) :
    usage = ⟨String.ofList r.binary,
      r.finished ++ (blocksAt (some r.binary) (first :: later)).map form⟩ := by
  generalize hn : later.length = n
  induction n using Nat.strongRecOn generalizing r first later with
  | ind n ih =>
    subst hn
    obtain ⟨more, rest, rfl, hmore, hrest, hblocks⟩ :=
      blocksAt_cons (some r.binary) first later
    rw [List.forall_mem_append] at hfilled
    rw [readBlock_append missing r first rest hfilled.1 hmore] at h
    obtain ⟨next, hread, hlater⟩ := exists_of_bind h
    have hbinary := (readParts_ok hread).1
    obtain ⟨hfinished, hcurrent⟩ := readBlock_ok hopened hread
    rw [hblocks, List.map_cons]
    cases rest with
    | nil =>
      rw [finish_ok hlater, hbinary, hfinished, hcurrent, blocksAt, List.map_nil]
    | cons second later =>
      have hopens : startName? second = some r.binary := hrest second rfl
      rw [List.foldlM_cons, (readLine_opening hopens).2 next hbinary, bind_assoc,
        bind_assoc] at hlater
      obtain ⟨next', hstart, hlater⟩ := exists_of_bind hlater
      obtain rfl := startNext_ok hstart
      have hforms := ih later.length (by simp; omega) rfl
        (fun line hline => hfilled.2 line (List.mem_cons_of_mem second hline)) hlater rfl
      rw [hforms, hbinary, hfinished, hcurrent, List.append_assoc]
      rfl

end Reading

/-! ## The whole section -/

/-- A section that is read names its program on its first line that is not blank, and has one
form for each of its blocks, all of them accepted. -/
theorem forms_of_parse {text : String} {usage : Usage} (h : parse text = .ok usage) :
    (∃ first later, filled (Text.lines text.toList) = first :: later ∧
        startName? first = some usage.binary.toList) ∧
      usage.variants = (blocks text).map form ∧
        blocks text = blocksAt (some usage.binary.toList) (filled (Text.lines text.toList)) ∧
          ∀ block ∈ blocks text, Accepted block := by
  obtain ⟨hnamed, hunnamed⟩ := failure?_parse text
  have hnone : failure? (parse text) = none := failure?_eq_none_iff.2 ⟨usage, h⟩
  by_cases hname : Named (blocks text)
  · have haccepted : ∀ block ∈ blocks text, Accepted block := by
      have hfailures := hnone.symm.trans (hnamed hname)
      intro block hblock
      exact failures_eq_nil_iff.1
        (List.flatMap_eq_nil_iff.1 (List.head?_eq_none_iff.1 hfailures.symm) block hblock)
    have hfilled := rest_ne_nil_of_mem_filled (Text.lines text.toList)
    rw [parse, ofLines_eq] at h
    cases hlines : filled (Text.lines text.toList) with
    | nil =>
      rw [hlines] at h
      cases h
    | cons first later =>
      have hblocks : blocks text = blocksAt (startName? first) (first :: later) := by
        rw [blocks, hlines]
      rw [hlines, List.forall_mem_cons] at hfilled
      rw [hlines, List.foldlM_cons] at h
      cases hstart : startName? first with
      | none =>
        rw [Reading.readLine_unnamed hfilled.1 hstart] at h
        cases h
      | some name =>
        rw [(Reading.readLine_opening hstart).1, bind_assoc] at h
        have hforms := @Reading.readBlocks_ok (.start name) _ _ rfl _ _ hfilled.2 h
        rw [hstart] at hblocks
        rw [hforms, String.toList_ofList]
        exact ⟨⟨first, later, rfl, hstart⟩, by rw [hblocks]; rfl, hblocks, haccepted⟩
  · cases hnone.symm.trans (hunnamed hname)

end Usage

end Synopsis
