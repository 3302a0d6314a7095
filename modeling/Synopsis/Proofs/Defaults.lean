import Synopsis.OptionRecord.Basic
import Synopsis.Proofs.Ends

/-!
# The default value in a description

An annotation opens with a mark, `[default:` in upper, lower or mixed case, and closes at the
next bracket behind it (`Opens`).  `Annotated` goes through a text from the left, past a whole
annotation where one opens and past one character where none does, and there is one list of
texts that it finds (`annotated_iff`).  The default value is the last of them.

What stands in front of a closing bracket does not matter to what is found behind it
(`Annotated.behind`).  So an annotation that is added to a description counts, unless the
description leaves a mark open.
-/

namespace Synopsis.OptionRecord

open Lexeme Text

/-! ## Annotations -/

/-- The mark of a default value, in any case. -/
def IsMark (mark : List Char) : Prop :=
  mark.map Char.toLower = "[default:".toList

/-- An annotation with this text opens the text `s`, and `rest` follows it. -/
def Opens (s text rest : List Char) : Prop :=
  ∃ mark, IsMark mark ∧ s = mark ++ text ++ ']' :: rest ∧ text ≠ [] ∧ ']' ∉ text

/-- The texts of the annotations, from the left, none inside another. -/
inductive Annotated : List Char → List (List Char) → Prop
  | done : Annotated [] []
  | found {s text rest : List Char} {texts : List (List Char)} (hopens : Opens s text rest)
      (hlater : Annotated rest texts) : Annotated s (text :: texts)
  | next {c : Char} {s : List Char} {texts : List (List Char)}
      (hopens : ∀ text rest, ¬ Opens (c :: s) text rest) (hlater : Annotated s texts) :
      Annotated (c :: s) texts

theorem caseless?_eq_some_iff {word s : List Char} {cut : Cut} (hword : 's' ∉ word) :
    caseless? word s = some cut ↔
      cut.taken.map Char.toLower = word ∧ s = cut.taken ++ cut.rest := by
  induction word generalizing s cut with
  | nil =>
    rw [caseless?, List.map_eq_nil_iff, Option.some.injEq]
    constructor
    · rintro rfl
      exact ⟨rfl, rfl⟩
    · rintro ⟨htaken, rfl⟩
      obtain ⟨taken, rest⟩ := cut
      obtain rfl : taken = [] := htaken
      rfl
  | cons letter word ih =>
    obtain ⟨hletter, hlater⟩ := not_or.1 (mt List.mem_cons.2 hword)
    obtain ⟨taken, rest⟩ := cut
    cases s with
    | nil =>
      refine ⟨fun h => (by cases h), fun ⟨htaken, hs⟩ => ?_⟩
      obtain rfl : taken = [] := (List.append_eq_nil_iff.1 hs.symm).1
      cases htaken
    | cons c s =>
      have hspells : spells letter c = (c.toLower == letter) := by
        simp [spells, Ne.symm hletter]
      rw [caseless?, hspells]
      split
      · rename_i hc
        rw [Option.map_eq_some_iff]
        constructor
        · rintro ⟨tail, htail, htaken⟩
          obtain ⟨rfl, rfl⟩ := Cut.mk.inj htaken
          obtain ⟨hmap, rfl⟩ := (ih hlater).1 htail
          exact ⟨by simp [hmap, beq_iff_eq.1 hc], rfl⟩
        · rintro ⟨htaken, hs⟩
          cases taken with
          | nil => cases htaken
          | cons d taken =>
            obtain ⟨rfl, rfl⟩ := List.cons.inj hs
            exact ⟨⟨taken, rest⟩, (ih hlater).2 ⟨(List.cons.inj htaken).2, rfl⟩, rfl⟩
      · rename_i hc
        refine ⟨fun h => (by cases h), fun ⟨htaken, hs⟩ => absurd ?_ hc⟩
        cases taken with
        | nil => cases htaken
        | cons d taken =>
          obtain ⟨rfl, -⟩ := List.cons.inj hs
          exact beq_iff_eq.2 (List.cons.inj htaken).1

theorem annotation?_eq_some_iff {s : List Char} {cut : Cut} :
    annotation? s = some cut ↔ Opens s cut.taken cut.rest := by
  have hword : 's' ∉ "[default:".toList := by decide
  constructor
  · intro h
    obtain ⟨mark, hmark, hbody⟩ := Option.bind_eq_some_iff.1 h
    obtain ⟨hlower, hs⟩ := (caseless?_eq_some_iff hword).1 hmark
    simp only at hbody
    split at hbody
    · rename_i c text rest htaken hrest
      obtain rfl := Option.some.inj hbody
      have hsplit : c :: text ++ ']' :: rest = mark.rest := by
        rw [← htaken, ← hrest]
        exact Cut.run_isOf _ _
      refine ⟨mark.taken, hlower, ?_, by simp [htaken], fun hmem => ?_⟩
      · rw [htaken, List.append_assoc, hsplit]
        exact hs
      · simpa using List.all_eq_true.1 List.all_takeWhile ']' hmem
    · cases hbody
  · rintro ⟨mark, hlower, hs, hne, hclosed⟩
    obtain ⟨taken, rest⟩ := cut
    have hmark : caseless? "[default:".toList s = some ⟨mark, taken ++ ']' :: rest⟩ :=
      (caseless?_eq_some_iff hword).2 ⟨hlower, by rw [hs, List.append_assoc]⟩
    have hopen : ∀ c ∈ taken, (c != ']') = true := by
      intro c hc
      simpa using ne_of_mem_of_not_mem hc hclosed
    have hstop : ∀ c ∈ (']' :: rest).head?, (c != ']') = false := by simp
    obtain ⟨htake, hdrop⟩ := span_append hopen hstop
    obtain ⟨c, text, rfl⟩ := List.exists_cons_of_ne_nil hne
    refine Option.bind_eq_some_iff.2 ⟨_, hmark, ?_⟩
    simp only [Cut.run, htake, hdrop]

/-- One list of texts is found. -/
theorem annotated_iff {s : List Char} {texts : List (List Char)} :
    Annotated s texts ↔ annotations s = texts := by
  constructor
  · intro h
    induction h with
    | done => rw [annotations]
    | @found s text rest texts hopens _ ih =>
      have hread : annotation? s = some ⟨text, rest⟩ := annotation?_eq_some_iff.2 hopens
      cases s with
      | nil => cases hread
      | cons c s =>
        rw [annotations]
        split
        · rename_i cut hcut
          obtain rfl := Option.some.inj (hread.symm.trans hcut)
          rw [ih]
        · rename_i hnone
          rw [hread] at hnone
          cases hnone
    | @next c s texts hopens _ ih =>
      rw [annotations]
      split
      · rename_i cut hcut
        exact absurd (annotation?_eq_some_iff.1 hcut) (hopens _ _)
      · exact ih
  · rintro rfl
    fun_induction annotations s with
    | case1 => exact .done
    | case2 c s cut hcut ih => exact .found (annotation?_eq_some_iff.1 hcut) ih
    | case3 c s hnone ih =>
      refine .next (fun text rest hopens => ?_) ih
      have hread : annotation? (c :: s) = some ⟨text, rest⟩ := annotation?_eq_some_iff.2 hopens
      rw [hnone] at hread
      cases hread

/-! ## Marks -/

theorem isMark_default : IsMark "[default:".toList := by
  rw [IsMark]
  decide

namespace IsMark

variable {mark : List Char} (h : IsMark mark)
include h

theorem toLower_mem {c : Char} (hc : c ∈ mark) : c.toLower ∈ "[default:".toList := by
  rw [← h]
  exact List.mem_map_of_mem hc

theorem not_isBlank {c : Char} (hc : c ∈ mark) : isBlank c = false := by
  cases hblank : isBlank c with
  | false => rfl
  | true =>
    have hlow : ¬ (c.val ≥ 'A'.val ∧ c.val ≤ 'Z'.val) := by
      intro hrange
      have hupper : c.isUpper = true := decide_eq_true hrange
      rw [not_isBlank_of_isWordPart (isWordPart_of_isUpper hupper)] at hblank
      cases hblank
    have hsame : c.toLower = c := dif_neg hlow
    have hmem := h.toLower_mem hc
    rw [hsame] at hmem
    have hletters : ("[default:".toList.all fun d => !isBlank d) = true := by decide
    have hletter := List.all_eq_true.1 hletters _ hmem
    rw [hblank] at hletter
    cases hletter

theorem bracket_notMem : ']' ∉ mark := fun hmem =>
  absurd (h.toLower_mem hmem) (by decide)

/-- Only the first character of a mark is a bracket. -/
theorem bracket_notMem_tail : '[' ∉ mark.tail := by
  intro hmem
  have hletters : mark.tail.map Char.toLower = "default:".toList := by
    rw [List.map_tail, h]
    rfl
  have hbracket : '[' ∈ "default:".toList := by
    rw [← hletters]
    exact List.mem_map_of_mem hmem
  exact absurd hbracket (by decide)

end IsMark

/-- No mark stands in the text. -/
def Markless (s : List Char) : Prop :=
  ∀ mark, IsMark mark → ¬ mark <:+: s

theorem Markless.append_blank {s gap : List Char} (h : Markless s)
    (hgap : ∀ c ∈ gap, isBlank c = true) : Markless (s ++ gap) := by
  intro mark hmark hstands
  have hnoblank : ∀ t, (∀ c ∈ t, c ∈ mark) → (∀ c ∈ t, c ∈ gap) → t = [] := by
    intro t hmem hblank
    refine List.eq_nil_iff_forall_not_mem.2 fun c hc => ?_
    have hnot := hmark.not_isBlank (hmem c hc)
    rw [hgap c (hblank c hc)] at hnot
    cases hnot
  rcases List.infix_append_iff.1 hstands with hs | hin | ⟨first, second, rfl, hend, hopen⟩
  · exact h mark hmark hs
  · rw [hnoblank mark (fun _ => id) fun c hc => hin.mem hc] at hmark
    cases hmark
  · obtain rfl : second = [] :=
      hnoblank second (fun c => List.mem_append_right first) fun c hc => hopen.mem hc
    rw [List.append_nil] at hmark
    exact h first hmark hend.isInfix

/-! ## Behind a closing bracket -/

/-- The text is empty, or it ends with a closing bracket. -/
def Closed (s : List Char) : Prop :=
  ∀ c ∈ s.getLast?, c = ']'

/-- What opens in front of a closing bracket closes there at the latest. -/
theorem Opens.exists_append {s q text rest : List Char} (hs : Closed s) (hne : s ≠ [])
    (h : Opens (s ++ q) text rest) : ∃ rest', rest = rest' ++ q ∧ Closed rest' := by
  obtain ⟨mark, hmark, hsplit, -, hclosed⟩ := h
  have hopen : ']' ∉ mark ++ text := by
    rw [List.mem_append, not_or]
    exact ⟨hmark.bracket_notMem, hclosed⟩
  obtain ⟨front, hfront⟩ : ∃ front, s = front ++ [']'] := by
    cases hlast : s.getLast? with
    | none => exact absurd (List.getLast?_eq_none_iff.1 hlast) hne
    | some c =>
      obtain rfl := hs c hlast
      exact List.getLast?_eq_some_iff.1 hlast
  rw [hfront, List.append_assoc, List.singleton_append] at hsplit
  rcases List.append_eq_append_iff.1 hsplit with ⟨more, hmore, hrest⟩ | ⟨more, hmore, hrest⟩
  · -- The text is open, so the bracket that ends `s` is the one that closes.
    cases more with
    | nil => exact ⟨[], (List.cons.inj hrest).2.symm, by simp [Closed]⟩
    | cons c more =>
      obtain ⟨rfl, -⟩ := List.cons.inj hrest
      exact absurd (by simp [hmore]) hopen
  · cases more with
    | nil => exact ⟨[], (List.cons.inj hrest).2, by simp [Closed]⟩
    | cons c more =>
      refine ⟨more ++ [']'], ?_, by simp [Closed]⟩
      rw [(List.cons.inj hrest).2, List.append_assoc]
      rfl

/-- Behind a closing bracket the same is found as in what stands there alone. -/
theorem Annotated.behind {s q : List Char} {texts : List (List Char)} (hs : Closed s)
    (h : Annotated (s ++ q) texts) :
    ∃ before later, texts = before ++ later ∧ Annotated q later := by
  generalize hsq : s ++ q = sq at h
  induction h generalizing s with
  | done =>
    obtain ⟨-, rfl⟩ := List.append_eq_nil_iff.1 hsq
    exact ⟨[], [], rfl, .done⟩
  | @found sq text rest texts hopens hlater ih =>
    subst hsq
    by_cases hne : s = []
    · subst hne
      exact ⟨[], text :: texts, rfl, .found hopens hlater⟩
    · obtain ⟨rest', rfl, hrest⟩ := hopens.exists_append hs hne
      obtain ⟨before, later, rfl, hq⟩ := ih hrest rfl
      exact ⟨text :: before, later, rfl, hq⟩
  | @next c sq texts hopens hlater ih =>
    cases s with
    | nil =>
      obtain rfl : q = c :: sq := hsq
      exact ⟨[], texts, rfl, .next hopens hlater⟩
    | cons d s =>
      obtain ⟨rfl, rfl⟩ := List.cons.inj hsq
      refine ih (fun c hc => hs c ?_) rfl
      rw [List.getLast?_cons, Option.mem_def.1 hc]
      rfl

/-- Nothing is found in front of an annotation that is the first. -/
theorem annotated_of_markless {s value : List Char} (hs : Markless s) (hne : value ≠ [])
    (hvalue : ']' ∉ value) : Annotated (s ++ ("[default:".toList ++ value ++ [']'])) [value] := by
  induction s with
  | nil => exact .found ⟨"[default:".toList, isMark_default, rfl, hne, hvalue⟩ .done
  | cons c s ih =>
    refine .next (fun text rest hopens => ?_)
      (ih fun mark hmark hstands => hs mark hmark (hstands.trans (List.suffix_cons c s).isInfix))
    obtain ⟨mark, hmark, hsplit, -, -⟩ := hopens
    have hsplit : (c :: s) ++ ("[default:".toList ++ value ++ [']']) =
        mark ++ (text ++ ']' :: rest) := by
      rw [← List.append_assoc mark]
      exact hsplit
    rcases List.append_eq_append_iff.1 hsplit with ⟨more, hmore, hrest⟩ | ⟨more, hmore, -⟩
    · -- The mark would go on into that of the annotation, which starts with a bracket.
      cases more with
      | nil =>
        rw [List.append_nil] at hmore
        exact hs mark hmark (hmore ▸ List.infix_rfl)
      | cons d more =>
        obtain ⟨rfl, -⟩ := List.cons.inj hrest
        rw [hmore] at hmark
        exact hmark.bracket_notMem_tail (List.mem_append_right s List.mem_cons_self)
    · exact hs mark hmark (hmore ▸ (List.prefix_append mark more).isInfix)

/-- Behind the last closing bracket there is no mark. -/
def Settled (s : List Char) : Prop :=
  ∀ before behind, s = before ++ behind → ']' ∉ behind → Markless behind

theorem settled_of_closed {s : List Char} (h : Closed s) : Settled s := by
  rintro before behind rfl hopen mark hmark hstands
  obtain rfl : behind = [] := by
    cases hlast : behind.getLast? with
    | none => exact List.getLast?_eq_none_iff.1 hlast
    | some c =>
      obtain rfl : c = ']' := h c (by rw [List.getLast?_append, hlast]; rfl)
      exact absurd (List.mem_of_getLast? hlast) hopen
  rw [List.infix_nil.1 hstands] at hmark
  cases hmark

/-- An annotation behind a text that leaves no mark open is the last. -/
theorem getLast?_annotations {s gap value : List Char} (hs : Settled s)
    (hgap : ∀ c ∈ gap, isBlank c = true) (hne : value ≠ []) (hvalue : ']' ∉ value) :
    (annotations (s ++ gap ++ ("[default:".toList ++ value ++ [']']))).getLast? = some value := by
  obtain ⟨before, behind, rfl, hopen, hlast⟩ := exists_rdropWhile_append (· != ']') s
  have hclosed : Closed before := fun c hc => by simpa using hlast c hc
  have hmarkless : Markless behind :=
    hs before behind rfl fun hmem => by simpa using hopen ']' hmem
  have hannotation := annotated_of_markless (hmarkless.append_blank hgap) hne hvalue
  rw [List.append_assoc before, List.append_assoc before]
  obtain ⟨earlier, later, htexts, hlater⟩ := Annotated.behind hclosed (annotated_iff.2 rfl)
  rw [annotated_iff, annotated_iff.1 hannotation] at hlater
  rw [htexts, ← hlater, List.getLast?_concat]

/-! ## One more fragment -/

theorem exists_joinFragment (text fragment : List Char) :
    ∃ gap, (∀ c ∈ gap, isBlank c = true) ∧
      joinFragment text fragment = text ++ (gap ++ fragment) := by
  rw [joinFragment]
  split
  · rename_i hempty
    obtain rfl := List.isEmpty_iff.1 hempty
    exact ⟨[], by simp, rfl⟩
  · refine ⟨[if startsLine fragment then '\n' else ' '], ?_, rfl⟩
    rw [List.forall_mem_singleton]
    split <;> decide

theorem exists_trim_append (text : List Char) {gap fragment : List Char}
    (hgap : ∀ c ∈ gap, isBlank c = true) (hne : fragment ≠ [])
    (hstart : ∀ c ∈ fragment.head?, isBlank c = false) (hend : Tight fragment) :
    ∃ gap', (∀ c ∈ gap', isBlank c = true) ∧
      trim (text ++ (gap ++ fragment)) = trim text ++ gap' ++ fragment := by
  have hdrop : List.dropWhile isBlank (gap ++ fragment) = fragment := (span_append hgap hstart).2
  have hstarts : trimStart (text ++ (gap ++ fragment)) =
      if (trimStart text).isEmpty then fragment else trimStart text ++ (gap ++ fragment) := by
    rw [trimStart, List.dropWhile_append, hdrop]
    rfl
  obtain ⟨pad, hpad, hblank⟩ := exists_trimEnd (trimStart text)
  have hpad : trim text ++ pad = trimStart text := hpad
  split at hstarts
  · rename_i hempty
    rw [List.isEmpty_iff.1 hempty] at hpad
    obtain ⟨htext, -⟩ := List.append_eq_nil_iff.1 hpad
    refine ⟨[], by simp, ?_⟩
    rw [trim, hstarts, hend.trimEnd_eq, htext]
    rfl
  · refine ⟨pad ++ gap, fun c hc => ?_, ?_⟩
    · exact (List.mem_append.1 hc).elim (hblank c) (hgap c)
    · have hbehind : Tight (trimStart text ++ (gap ++ fragment)) :=
        (hend.append_of_ne_nil hne gap).append_of_ne_nil (by simp [hne]) _
      rw [trim, hstarts, hbehind.trimEnd_eq, ← hpad]
      simp

/-- Only blanks stand between a description and a fragment that is added to it. -/
theorem exists_prose_append (record : OptionRecord) {fragment : String}
    (hne : fragment.toList ≠ []) (hstart : ∀ c ∈ fragment.toList.head?, isBlank c = false)
    (hend : Tight fragment.toList) :
    ∃ gap, (∀ c ∈ gap, isBlank c = true) ∧
      prose { record with fragments := record.fragments ++ [fragment] } =
        record.prose ++ gap ++ fragment.toList := by
  obtain ⟨gap, hgap, hjoin⟩ := exists_joinFragment
    ((record.fragments.map String.toList).foldl joinFragment []) fragment.toList
  rw [prose, List.map_append, List.foldl_append]
  simp only [List.map_cons, List.map_nil, List.foldl_cons, List.foldl_nil]
  rw [hjoin]
  exact exists_trim_append _ hgap hne hstart hend

/-! ## The default value -/

theorem default?_eq_none_iff {record : OptionRecord} :
    record.default? = none ↔ ∀ last ∈ (annotations record.prose).getLast?, trim last = [] := by
  rw [default?]
  cases (annotations record.prose).getLast? with
  | none => simp
  | some last => simp

theorem default?_eq_some_iff {record : OptionRecord} {value : String} :
    record.default? = some value ↔
      ∃ last ∈ (annotations record.prose).getLast?, trim last = value.toList ∧ value ≠ "" := by
  rw [default?]
  cases (annotations record.prose).getLast? with
  | none => simp
  | some last =>
    constructor
    · intro h
      simp only at h
      split at h
      · cases h
      · rename_i hne
        obtain rfl := Option.some.inj h
        exact ⟨last, rfl, String.toList_ofList.symm, by simpa using hne⟩
    · rintro ⟨_, hlast, htrim, hne⟩
      obtain rfl := Option.some.inj hlast
      simp [htrim, hne]

theorem default?_append {record : OptionRecord} {value : String}
    (hsettled : Settled record.description.toList) (hne : value ≠ "")
    (htrim : trim value.toList = value.toList) (hclosed : ']' ∉ value.toList) :
    default? { record with fragments := record.fragments ++ ["[default: " ++ value ++ "]"] } =
      some value := by
  have hfragment : ("[default: " ++ value ++ "]").toList =
      "[default:".toList ++ (' ' :: value.toList) ++ [']'] := by
    simp
  have hstart : ∀ c ∈ ("[default: " ++ value ++ "]").toList.head?, isBlank c = false := by
    intro c hc
    obtain rfl : '[' = c := by simpa [hfragment] using hc
    decide
  have hend : Tight ("[default: " ++ value ++ "]").toList := by
    rw [hfragment]
    exact (tight_singleton (by decide)).append_of_ne_nil (by simp) _
  obtain ⟨gap, hgap, hprose⟩ := exists_prose_append record (by simp [hfragment]) hstart hend
  have hspace : trim (' ' :: value.toList) = trim value.toList := by
    rw [trim, trimStart, List.dropWhile_cons_of_pos (by decide)]
    rfl
  rw [description, String.toList_ofList] at hsettled
  rw [default?_eq_some_iff, hprose, hfragment,
    getLast?_annotations hsettled hgap (by simp) (by simpa using hclosed)]
  exact ⟨_, rfl, hspace.trans htrim, hne⟩

/-- The default value is the last annotation that is found from the left, trimmed, if there is
one and it is not blank.  An annotation that is added to a description which leaves no mark open
is the last. -/
theorem default_reads_last (record : OptionRecord) :
    (∃ texts, (∀ texts', Annotated record.description.toList texts' ↔ texts' = texts) ∧
      (record.default? = none ↔ ∀ last ∈ texts.getLast?, trim last = []) ∧
      ∀ value, record.default? = some value ↔
        ∃ last ∈ texts.getLast?, trim last = value.toList ∧ value ≠ "") ∧
    ∀ value, Settled record.description.toList → value ≠ "" →
      trim value.toList = value.toList → ']' ∉ value.toList →
      default? { record with fragments := record.fragments ++ ["[default: " ++ value ++ "]"] } =
        some value := by
  constructor
  · refine ⟨annotations record.prose, fun texts => ?_, default?_eq_none_iff,
      fun value => default?_eq_some_iff⟩
    rw [description, String.toList_ofList, annotated_iff, eq_comm]
  · exact fun value => default?_append

/-- The annotation that is added is the third of the description, and its value has a blank
inside. -/
theorem default_reads_last_of_three :
    Settled "Jobs [default: 1],\n[DEFAULT:2]".toList ∧
      default? ⟨["-j"], some "N", 0,
          ["Jobs [default: 1],", "[DEFAULT:2]", "[default: all cores]"], 1⟩ =
        some "all cores" := by
  have hsettled : Settled "Jobs [default: 1],\n[DEFAULT:2]".toList :=
    settled_of_closed (by simp [Closed])
  refine ⟨hsettled, ?_⟩
  exact (default_reads_last
    ⟨["-j"], some "N", 0, ["Jobs [default: 1],", "[DEFAULT:2]"], 1⟩).2 "all cores"
      (by with_unfolding_all exact hsettled) (by decide) (by decide) (by decide)

end Synopsis.OptionRecord
