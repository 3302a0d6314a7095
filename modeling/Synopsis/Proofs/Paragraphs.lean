import Mathlib.Data.List.Chain
import Synopsis.Proofs.Accounts
import Synopsis.Proofs.Ends

/-!
# The lines of a description

A fragment that starts with a letter, a number or an underscore goes on with the line before it,
behind a space; any other starts a line of its own (`rows`).  So the only space that a line can
start with is the one behind an empty fragment (`edged_rows`), and whether there is one can be
seen from the fragments (`rows_unindented_iff`).

A description is trimmed as a whole.  That takes the empty fragments at its ends and what layout
the first fragment has before it, and leaves the lines between them as they are
(`exists_rows`).  `description_edges_iff` is the result.
-/

namespace Synopsis.OptionRecord

open Lexeme Text

/-! ## Fragments in lines -/

/-- The lines of fragments that stand behind the text `row` of the first line. -/
def rows (row : List Char) : List (List Char) → List (List Char)
  | [] => [row]
  | f :: fs => if startsLine f then row :: rows f fs else rows (row ++ ' ' :: f) fs

/-- A fragment with what joins it to the text before it. -/
def joined (f : List Char) : List Char :=
  (if startsLine f then '\n' else ' ') :: f

theorem foldl_joinFragment {text : List Char} (h : text ≠ []) (fs : List (List Char)) :
    fs.foldl joinFragment text = text ++ fs.flatMap joined := by
  induction fs generalizing text with
  | nil => simp
  | cons f fs ih =>
    have hjoin : joinFragment text f = text ++ joined f := by
      simp [joinFragment, joined, h]
    rw [List.foldl_cons, hjoin, ih (by simp [h]), List.flatMap_cons, List.append_assoc]

/-- Fragments at the start that are empty leave nothing. -/
theorem foldl_joinFragment_dropWhile (fs : List (List Char)) :
    fs.foldl joinFragment [] = (fs.dropWhile (·.isEmpty)).foldl joinFragment [] := by
  induction fs with
  | nil => rfl
  | cons f fs ih =>
    cases f with
    | nil => exact ih
    | cons c f => rfl

theorem splitOn_joined {row : List Char} {fs : List (List Char)} (hrow : '\n' ∉ row)
    (hfs : ∀ f ∈ fs, '\n' ∉ f) : (row ++ fs.flatMap joined).splitOn '\n' = rows row fs := by
  induction fs generalizing row with
  | nil =>
    have hlines : ∀ l ∈ [row], '\n' ∉ l := by simpa using hrow
    have hone := List.splitOn_intercalate '\n' hlines (by simp)
    simpa [rows] using hone
  | cons f fs ih =>
    rw [List.forall_mem_cons] at hfs
    rw [List.flatMap_cons, joined, rows]
    split
    · rw [List.cons_append, List.splitOn_append_cons_self_of_not_mem hrow, ih hfs.1 hfs.2]
    · rw [← ih (by simp [hrow, hfs.1]) hfs.2, List.append_assoc]

/-! ## The edges of lines -/

/-- No layout ends the line.  None starts it but a space before a letter, a number or an
underscore. -/
structure Edged (line : List Char) : Prop where
  no_tab : ∀ c ∈ line.head?, c ≠ '\t'
  one_space : ∀ rest, line = ' ' :: rest → startsLine rest = false
  last : ∀ c ∈ line.getLast?, isLayout c = false

/-- A line without layout at its start. -/
def Unindented (line : List Char) : Prop :=
  ∀ c ∈ line.head?, isLayout c = false

theorem not_isLayout_of_tight {line : List Char} (h : Tight line) :
    ∀ c ∈ line.getLast?, isLayout c = false := by
  intro c hc
  cases hlayout : isLayout c with
  | false => rfl
  | true =>
    have hblank := isBlank_of_isLayout hlayout
    rw [h c hc] at hblank
    cases hblank

theorem Unindented.edged {line : List Char} (h : Unindented line) (htight : Tight line) :
    Edged line := by
  refine ⟨?_, ?_, not_isLayout_of_tight htight⟩
  · rintro _ hc rfl
    exact absurd (h _ hc) (by decide)
  · rintro rest rfl
    exact absurd (h ' ' rfl) (by decide)

/-- A line goes on behind a space. -/
theorem Edged.append {row f : List Char} (hrow : Edged row) (hf : startsLine f = false)
    (htight : Tight f) : Edged (row ++ ' ' :: f) := by
  have hne : f ≠ [] := by
    rintro rfl
    cases hf
  have hend := (htight.append_of_ne_nil hne [' ']).append_of_ne_nil (by simp) row
  refine ⟨fun c hc => ?_, fun rest hrest => ?_, not_isLayout_of_tight hend⟩
  · cases row with
    | nil =>
      obtain rfl : ' ' = c := Option.some.inj hc
      decide
    | cons d row => exact hrow.no_tab c hc
  · cases row with
    | nil =>
      obtain rfl := (List.cons.inj hrest).2
      exact hf
    | cons d row =>
      obtain ⟨rfl, rfl⟩ := List.cons.inj hrest
      have hstart := hrow.one_space row rfl
      cases row with
      | nil => cases hstart
      | cons e row => exact hstart

theorem edged_rows {row : List Char} {fs : List (List Char)} (hrow : Edged row)
    (hstart : ∀ f ∈ fs, Unindented f) (htight : ∀ f ∈ fs, Tight f) :
    ∀ line ∈ rows row fs, Edged line := by
  induction fs generalizing row with
  | nil => simpa [rows] using hrow
  | cons f fs ih =>
    rw [List.forall_mem_cons] at hstart htight
    rw [rows]
    split
    · rw [List.forall_mem_cons]
      exact ⟨hrow, ih (hstart.1.edged htight.1) hstart.2 htight.2⟩
    · rename_i hf
      exact ih (hrow.append (by simpa using hf) htight.1) hstart.2 htight.2

/-- An empty fragment stands before the end, or before one that starts a line. -/
def Breaks (fs : List (List Char)) : Prop :=
  fs.IsChain fun f next => f = [] → startsLine next = true

instance (fs : List (List Char)) : Decidable (Breaks fs) :=
  inferInstanceAs (Decidable (fs.IsChain _))

theorem breaks_cons_of_ne_nil {f : List Char} (hne : f ≠ []) (fs : List (List Char)) :
    Breaks (f :: fs) ↔ Breaks fs := by
  simp [Breaks, List.isChain_cons, hne]

/-- The first line starts with the text that stands before the fragments. -/
theorem exists_rows_cons (row : List Char) (fs : List (List Char)) :
    ∃ more later, rows row fs = (row ++ more) :: later := by
  induction fs generalizing row with
  | nil => exact ⟨[], [], by rw [List.append_nil]; rfl⟩
  | cons f fs ih =>
    rw [rows]
    split
    · exact ⟨[], rows f fs, by rw [List.append_nil]⟩
    · obtain ⟨more, later, hrows⟩ := ih (row ++ ' ' :: f)
      exact ⟨' ' :: f ++ more, later, by rw [hrows, List.append_assoc]⟩

theorem rows_unindented_iff {row : List Char} {fs : List (List Char)} (hrow : Unindented row)
    (hstart : ∀ f ∈ fs, Unindented f) :
    (∀ line ∈ rows row fs, Unindented line) ↔ Breaks (row :: fs) := by
  induction fs generalizing row with
  | nil => simpa [rows, Breaks] using hrow
  | cons f fs ih =>
    rw [List.forall_mem_cons] at hstart
    rw [rows]
    split
    · rename_i hf
      rw [List.forall_mem_cons, ih hstart.1 hstart.2]
      simp [Breaks, hf, hrow]
    · rename_i hf
      have hne : f ≠ [] := by
        rintro rfl
        exact hf rfl
      by_cases hempty : row = []
      · -- The space is the first character of the line.
        subst hempty
        obtain ⟨more, later, hrows⟩ := exists_rows_cons ([] ++ ' ' :: f) fs
        refine iff_of_false (fun hlines => ?_) fun hbreaks => ?_
        · rw [hrows] at hlines
          exact absurd (hlines _ List.mem_cons_self ' ' rfl) (by decide)
        · exact hf ((List.isChain_cons_cons.1 hbreaks).1 rfl)
      · have hgoes : Unindented (row ++ ' ' :: f) := by
          rwa [Unindented, List.head?_append_of_ne_nil _ hempty]
        rw [ih hgoes hstart.2, breaks_cons_of_ne_nil (by simp), breaks_cons_of_ne_nil hempty,
          breaks_cons_of_ne_nil hne]

theorem breaks_append_iff {fs pad : List (List Char)} (hpad : ∀ f ∈ pad, f.isEmpty = true) :
    Breaks (fs ++ pad) ↔ Breaks fs := by
  have hstarts : ∀ f ∈ pad, startsLine f = true := by
    intro f hf
    rw [List.isEmpty_iff.1 (hpad f hf)]
    rfl
  have hpads : Breaks pad := by
    apply List.Pairwise.isChain
    exact List.pairwise_of_forall_mem_list fun _ _ next hnext _ => hstarts next hnext
  rw [Breaks, List.isChain_append]
  refine ⟨fun h => h.1, fun h => ⟨h, hpads, fun _ _ next hnext _ => ?_⟩⟩
  exact hstarts next (List.mem_of_mem_head? hnext)

/-! ## The description of a record -/

/-- A fragment as it is kept: a part of a line, without the blanks behind it. -/
structure Kept (f : List Char) : Prop where
  tight : Tight f
  one_line : '\n' ∉ f

theorem trim_of_blanks {before s behind : List Char} (hbefore : ∀ c ∈ before, isBlank c = true)
    (hne : s ≠ []) (hstart : ∀ c ∈ s.head?, isBlank c = false) (htight : Tight s)
    (hbehind : ∀ c ∈ behind, isBlank c = true) : trim (before ++ (s ++ behind)) = s := by
  have hdrop : trimStart (before ++ (s ++ behind)) = s ++ behind := by
    refine (span_append hbefore ?_).2
    rwa [List.head?_append_of_ne_nil _ hne]
  rw [trim, hdrop, trimEnd_append_of_blank s hbehind, htight.trimEnd_eq]

theorem tight_flatMap_joined {row : List Char} {fs : List (List Char)} (hrow : Tight row)
    (hfs : ∀ f ∈ fs, Tight f) (hlast : ∀ f ∈ fs.getLast?, f.isEmpty = false) :
    Tight (row ++ fs.flatMap joined) := by
  rcases List.eq_nil_or_concat' fs with rfl | ⟨init, f, rfl⟩
  · simpa using hrow
  · have hne : f ≠ [] := by simpa using hlast f (by simp)
    have hend : Tight (joined f) := (hfs f (by simp)).append_of_ne_nil hne [_]
    rw [List.flatMap_append, List.flatMap_singleton, ← List.append_assoc]
    exact hend.append_of_ne_nil (by simp [joined]) _

theorem tight_trimStart {s : List Char} (h : Tight s) (hne : s ≠ []) :
    Tight (trimStart s) ∧ trimStart s ≠ [] := by
  have hsplit : s.takeWhile isBlank ++ trimStart s = s := List.takeWhile_append_dropWhile
  have hrow : trimStart s ≠ [] := by
    intro hnil
    rw [hnil, List.append_nil] at hsplit
    obtain ⟨init, c, rfl⟩ := (List.eq_nil_or_concat' s).resolve_left hne
    have hc : c ∈ (init ++ [c]).takeWhile isBlank := by simp [hsplit]
    have hblank := List.all_eq_true.1 List.all_takeWhile c hc
    rw [h c (by simp)] at hblank
    cases hblank
  refine ⟨fun c hc => h c ?_, hrow⟩
  rw [← hsplit, List.getLast?_append, Option.mem_def.1 hc]
  rfl

/-- What is left of the description when it is trimmed: the fragments from the first that is not
empty to the last, the first without the blanks before it. -/
theorem exists_rows {fragments : List (List Char)} (hkept : ∀ f ∈ fragments, Kept f)
    (hstart : ∀ f ∈ fragments.tail, Unindented f) :
    ∃ row fs, trim (fragments.foldl joinFragment []) = row ++ fs.flatMap joined ∧
      Kept row ∧ Unindented row ∧ (∀ f ∈ fs, Kept f ∧ Unindented f) ∧
        (Breaks (row :: fs) ↔ Breaks (fragments.dropWhile (·.isEmpty))) := by
  rw [foldl_joinFragment_dropWhile]
  have hsuffix : fragments.dropWhile (·.isEmpty) <:+ fragments := List.dropWhile_suffix _
  have hhead := head?_dropWhile (p := (·.isEmpty)) fragments
  cases hdrop : fragments.dropWhile (·.isEmpty) with
  | nil =>
    exact ⟨[], [], rfl, ⟨tight_nil, by simp⟩, by simp [Unindented], by simp, by simp [Breaks]⟩
  | cons first further =>
    rw [hdrop] at hsuffix hhead
    have hne : first ≠ [] := by simpa using hhead first rfl
    have hfurther : ∀ f ∈ further, Kept f ∧ Unindented f := by
      intro f hf
      refine ⟨hkept f (hsuffix.mem (List.mem_cons_of_mem first hf)), hstart f ?_⟩
      obtain ⟨empties, hempties⟩ := hsuffix
      rw [← hempties]
      cases empties with
      | nil => exact hf
      | cons e empties => simp [hf]
    have hfirst := hkept first (hsuffix.mem List.mem_cons_self)
    obtain ⟨fs, pad, rfl, hpad, hlast⟩ := exists_rdropWhile_append (·.isEmpty) further
    obtain ⟨hrow, hrowne⟩ := tight_trimStart hfirst.tight hne
    have hblanks : first.takeWhile isBlank ++ trimStart first = first :=
      List.takeWhile_append_dropWhile
    have hnonblank : ∀ c ∈ (trimStart first).head?, isBlank c = false := head?_dropWhile first
    have hfs : ∀ f ∈ fs, Kept f ∧ Unindented f := fun f hf =>
      hfurther f (List.mem_append_left pad hf)
    refine ⟨trimStart first, fs, ?_, ⟨hrow, ?_⟩, ?_, hfs, ?_⟩
    · have hbody := tight_flatMap_joined hrow (fun f hf => (hfs f hf).1.tight) hlast
      have hbehind : ∀ c ∈ pad.flatMap joined, isBlank c = true := by
        intro c hc
        obtain ⟨f, hf, hc⟩ := List.mem_flatMap.1 hc
        rw [List.isEmpty_iff.1 (hpad f hf)] at hc
        obtain rfl : c = '\n' := by simpa [joined, startsLine] using hc
        decide
      have htext : first ++ (fs ++ pad).flatMap joined = first.takeWhile isBlank ++
          (trimStart first ++ fs.flatMap joined ++ pad.flatMap joined) := by
        conv => lhs; rw [← hblanks]
        simp
      have hjoin : joinFragment [] first = first := rfl
      rw [List.foldl_cons, hjoin, foldl_joinFragment hne, htext]
      refine trim_of_blanks (fun c => List.all_eq_true.1 List.all_takeWhile c) (by simp [hrowne]) ?_
        hbody hbehind
      rwa [List.head?_append_of_ne_nil _ hrowne]
    · exact fun hfeed => hfirst.one_line (hblanks ▸ List.mem_append_right _ hfeed)
    · intro c hc
      cases hlayout : isLayout c with
      | false => rfl
      | true =>
        have hblank := isBlank_of_isLayout hlayout
        rw [hnonblank c hc] at hblank
        cases hblank
    · rw [breaks_cons_of_ne_nil hrowne, breaks_cons_of_ne_nil hne, breaks_append_iff hpad]

/-! ## The fragments of a record -/

theorem kept_of_suffix {line s : List Char} (hline : '\n' ∉ line) (hs : s <:+ line) :
    Kept (fragment s).toList := by
  obtain ⟨pad, hsplit, -⟩ := exists_trimEnd s
  rw [fragment, String.toList_ofList]
  refine ⟨tight_trimEnd s, fun hfeed => hline (hs.mem ?_)⟩
  rw [← hsplit]
  exact List.mem_append_left pad hfeed

theorem unindented_of_indent (line : List Char) :
    Unindented (fragment (indent line).rest).toList := by
  have hhead : ∀ c ∈ (indent line).rest.head?, isLayout c = false := head?_dropWhile line
  obtain ⟨pad, hsplit, -⟩ := exists_trimEnd (indent line).rest
  rw [fragment, String.toList_ofList]
  intro c hc
  apply hhead c
  rw [← hsplit, List.head?_append, Option.mem_def.1 hc]
  rfl

theorem Defines.suffix {line description : List Char} {uses : List OptionUse}
    {column : Option Nat} (h : Defines line uses column description) : description <:+ line := by
  have hindent : (indent line).rest <:+ line := ⟨_, Cut.run_isOf _ line⟩
  cases h with
  | described _ _ hline => exact ⟨_, hline.symm⟩
  | plain huses htrailing => exact (htrailing.suffix.trans huses.rest_suffix).trans hindent

/-- Only the first fragment of a record can have layout before it. -/
theorem HasBlock.fragments {ls : List (List Char)} {record : OptionRecord}
    (h : HasBlock ls record) (hls : ∀ line ∈ ls, '\n' ∉ line) :
    (∀ f ∈ record.fragments.map String.toList, Kept f) ∧
      ∀ f ∈ (record.fragments.map String.toList).tail, Unindented f := by
  obtain ⟨rfl, hdefines⟩ := h
  simp only [List.mem_append, List.mem_cons] at hls
  simp only [recordOf, List.map_cons, List.map_map, List.forall_mem_cons, List.tail_cons]
  refine ⟨⟨kept_of_suffix (hls _ (Or.inr (Or.inl rfl))) hdefines.suffix, ?_⟩, ?_⟩
  · simp only [List.mem_map, Function.comp_apply, forall_exists_index, and_imp]
    rintro _ l hl rfl
    exact kept_of_suffix (hls l (Or.inr (Or.inr (Or.inl hl)))) ⟨_, Cut.run_isOf _ l⟩
  · simp only [List.mem_map, Function.comp_apply, forall_exists_index, and_imp]
    rintro _ l hl rfl
    exact unindented_of_indent l

/-! ## The lines of a description -/

/-- Behind the first fragment that is not empty, every empty one stands before the end, or
before one that starts a line. -/
def Spaced (record : OptionRecord) : Prop :=
  Breaks ((record.fragments.map String.toList).dropWhile (·.isEmpty))

instance (record : OptionRecord) : Decidable record.Spaced :=
  inferInstanceAs (Decidable (Breaks _))

/-- No layout stands at the end of a line, and none at its start but a space before a letter, a
number or an underscore.  There is no such space exactly when no empty fragment runs into a
fragment that goes on with its line. -/
theorem description_edges_iff {text : String} {records : List OptionRecord}
    (h : parse text = .ok records) {record : OptionRecord} (hrecord : record ∈ records) :
    (∀ line ∈ record.description.toList.splitOn '\n', Edged line) ∧
      ((∀ line ∈ record.description.toList.splitOn '\n',
          (∀ c ∈ line.head?, isLayout c = false) ∧ ∀ c ∈ line.getLast?, isLayout c = false) ↔
        record.Spaced) := by
  have hblock := (parse_accounts h).block record hrecord
  obtain ⟨hkept, hstart⟩ := hblock.fragments fun line hline => not_mem_of_mem_lines hline
  obtain ⟨row, fs, hprose, hrow, hunindented, hfs, hbreaks⟩ := exists_rows hkept hstart
  have hlines : record.description.toList.splitOn '\n' = rows row fs := by
    rw [description, String.toList_ofList, prose, hprose]
    exact splitOn_joined hrow.one_line fun f hf => (hfs f hf).1.one_line
  have hedged := edged_rows (hunindented.edged hrow.tight) (fun f hf => (hfs f hf).2)
    fun f hf => (hfs f hf).1.tight
  have hiff := rows_unindented_iff hunindented fun f hf => (hfs f hf).2
  rw [hlines, Spaced, ← hbreaks, ← hiff]
  refine ⟨hedged, fun hall line hline => (hall line hline).1, fun hall line hline => ?_⟩
  exact ⟨hall line hline, (hedged line hline).last⟩

/-- A bullet starts its line, so the empty line before it leaves no space. -/
theorem description_edges_of_bullets :
    parse "-a  First.\n\n    - Next\n    one." =
        .ok [⟨["-a"], none, 0, ["First.", "", "- Next", "one."], 1⟩] ∧
      ∀ line ∈ (description ⟨["-a"], none, 0, ["First.", "", "- Next", "one."], 1⟩).toList.splitOn
          '\n',
        (∀ c ∈ line.head?, isLayout c = false) ∧ ∀ c ∈ line.getLast?, isLayout c = false := by
  have hread : parse "-a  First.\n\n    - Next\n    one." =
      .ok [⟨["-a"], none, 0, ["First.", "", "- Next", "one."], 1⟩] := by
    with_unfolding_all rfl
  refine ⟨hread, (description_edges_iff hread List.mem_cons_self).2.2 ?_⟩
  with_unfolding_all decide

/-- A blank line in front of a word leaves a space at the start of the next line. -/
theorem paragraph_starts_with_space :
    parse "-a  First.\n\n    Next." = .ok [⟨["-a"], none, 0, ["First.", "", "Next."], 1⟩] ∧
      description ⟨["-a"], none, 0, ["First.", "", "Next."], 1⟩ = "First.\n Next." ∧
        ∃ line ∈ "First.\n Next.".toList.splitOn '\n', line.head? = some ' ' := by
  refine ⟨by with_unfolding_all rfl, by with_unfolding_all rfl, " Next.".toList, ?_, rfl⟩
  decide

end Synopsis.OptionRecord
