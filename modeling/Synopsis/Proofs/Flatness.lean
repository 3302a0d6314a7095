import Mathlib.Data.List.Chain
import Synopsis.Proofs.Cardinality

/-!
# Variants are their own only variants

Expanding a variant gives the variant again.  Two things are needed for it.

* A variant is flat.  Whatever way the decisions went, a choice of a tree holds plain tokens
  only (`Alternation.plain_of_mem_choices`), and compaction adds none.
* A variant is `Compacted`.  Compaction comes to a normal form (`compacted_spaced`), where it
  changes nothing (`Compacted.spaced_eq`).

A flat grammar is a tree without groups and bars, so it has one choice, and its links are
none (`expand_of_flat`, `balance_of_flat`).
-/

namespace Synopsis

/-! ## Compacted token sequences -/

/-- There is no separator at either end, and none beside another one. -/
structure Compacted (tokens : List Token) : Prop where
  start : ∀ token ∈ tokens.head?, token.isSeparator = false
  stop : ∀ token ∈ tokens.getLast?, token.isSeparator = false
  apart : tokens.IsChain fun t u => t.isSeparator = false ∨ u.isSeparator = false

namespace Compacted

variable {token : Token} {tokens : List Token}

theorem nil : Compacted [] :=
  ⟨by simp, by simp, .nil⟩

theorem cons (h : Compacted tokens) (htoken : token.isSeparator = false) :
    Compacted (token :: tokens) := by
  refine ⟨by simpa using htoken, fun last hlast => ?_, ?_⟩
  · cases tokens with
    | nil =>
      obtain rfl : token = last := by simpa using hlast
      exact htoken
    | cons next later => exact h.stop last (by simpa using hlast)
  · exact List.isChain_cons.2 ⟨fun _ _ => Or.inl htoken, h.apart⟩

/-- A separator can stand between a token and a sequence that is not empty. -/
theorem cons_separator (h : Compacted tokens) (hne : tokens ≠ [])
    (htoken : token.isSeparator = false) : Compacted (token :: .separator :: tokens) := by
  have hend : (Token.separator :: tokens).getLast? = tokens.getLast? := by
    obtain ⟨next, later, rfl⟩ := List.exists_cons_of_ne_nil hne
    simp
  refine ⟨by simpa using htoken, fun last hlast => ?_, ?_⟩
  · rw [List.getLast?_cons_cons, hend] at hlast
    exact h.stop last hlast
  · refine List.isChain_cons.2 ⟨fun _ _ => Or.inl htoken, List.isChain_cons.2 ⟨?_, h.apart⟩⟩
    exact fun next hnext => Or.inr (h.start next hnext)

theorem tail (h : Compacted (token :: tokens))
    (hstart : ∀ next ∈ tokens.head?, next.isSeparator = false) : Compacted tokens := by
  refine ⟨hstart, fun last hlast => h.stop last ?_, h.apart.tail⟩
  obtain ⟨next, later, rfl⟩ := List.exists_cons_of_ne_nil (l := tokens) (by
    rintro rfl
    simp at hlast)
  simpa using hlast

/-- What stands behind a separator is compacted, and not empty. -/
theorem behind_separator (h : Compacted (token :: .separator :: tokens)) :
    Compacted tokens ∧ tokens ≠ [] := by
  have hne : tokens ≠ [] := by
    rintro rfl
    have := h.stop .separator (by simp)
    cases this
  have hnext : ∀ next ∈ tokens.head?, next.isSeparator = false := by
    intro next hnext
    have hchain := (List.isChain_cons.1 (List.isChain_cons.1 h.apart).2).1 next hnext
    exact hchain.resolve_left (by simp [Token.isSeparator])
  refine ⟨⟨hnext, fun last hlast => h.stop last ?_, h.apart.tail.tail⟩, hne⟩
  obtain ⟨next, later, rfl⟩ := List.exists_cons_of_ne_nil hne
  simpa using hlast

end Compacted

/-! ## Compaction comes to a normal form -/

/-- Compaction leaves a compacted sequence, at the start and behind a token that is no
separator. -/
theorem compacted_spaced_and_continued (tokens : List Token) :
    Compacted (spaced tokens) ∧
      ∀ token, token.isSeparator = false → Compacted (token :: continued tokens) := by
  induction tokens with
  | nil =>
    have hspaced : spaced [] = [] := by simp [spaced, runs, List.intercalate]
    have hcontinued : continued [] = [] := by simp [continued]
    rw [hspaced, hcontinued]
    exact ⟨.nil, fun token htoken => Compacted.nil.cons htoken⟩
  | cons first tokens ih =>
    obtain ⟨hspaced, hcontinued⟩ := ih
    cases hsep : first.isSeparator with
    | false =>
      rw [spaced_cons hsep, continued_cons hsep]
      exact ⟨hcontinued first hsep, fun token htoken => (hcontinued first hsep).cons htoken⟩
    | true =>
      obtain rfl : first = .separator := by cases first <;> simp_all [Token.isSeparator]
      rw [spaced_separator, continued_separator_eq]
      refine ⟨hspaced, fun token htoken => ?_⟩
      split
      · exact Compacted.nil.cons htoken
      · rename_i hne
        exact hspaced.cons_separator hne htoken

theorem compacted_spaced (tokens : List Token) : Compacted (spaced tokens) :=
  (compacted_spaced_and_continued tokens).1

/-- Compaction changes nothing in a compacted sequence. -/
theorem spaced_and_continued_of_compacted (tokens : List Token) :
    (Compacted tokens → spaced tokens = tokens) ∧
      ∀ token, Compacted (token :: tokens) → token.isSeparator = false →
        continued tokens = tokens := by
  induction tokens with
  | nil => simp [spaced, runs, continued, List.intercalate]
  | cons first tokens ih =>
    obtain ⟨hspaced, hcontinued⟩ := ih
    cases hsep : first.isSeparator with
    | false =>
      rw [spaced_cons hsep, continued_cons hsep]
      refine ⟨fun h => by rw [hcontinued first h hsep], fun token h _ => ?_⟩
      rw [hcontinued first (h.tail (by simpa using hsep)) hsep]
    | true =>
      obtain rfl : first = .separator := by cases first <;> simp_all [Token.isSeparator]
      refine ⟨fun h => ?_, fun token h _ => ?_⟩
      · have := h.start .separator rfl
        cases this
      · obtain ⟨hlater, hne⟩ := h.behind_separator
        rw [continued_separator_eq, hspaced hlater, if_neg hne]

theorem Compacted.spaced_eq {tokens : List Token} (h : Compacted tokens) :
    spaced tokens = tokens :=
  (spaced_and_continued_of_compacted tokens).1 h

namespace Draft

theorem squeeze_sublist (separated : Bool) (tokens : List Token) :
    (squeeze separated tokens).Sublist tokens := by
  induction tokens generalizing separated with
  | nil => exact List.Sublist.slnil
  | cons token tokens ih =>
    rw [squeeze]
    split
    · exact (ih separated).cons token
    · exact (ih token.isSeparator).cons_cons token

/-- Compaction drops tokens and adds none. -/
theorem spaced_sublist (tokens : List Token) : (spaced tokens).Sublist tokens := by
  rw [← (dropLastSeparator_squeeze tokens).1, dropLastSeparator]
  split
  · exact (List.dropLast_sublist _).trans (squeeze_sublist true tokens)
  · exact squeeze_sublist true tokens

end Draft

/-! ## Choices are flat -/

theorem products_plain {xs ys : List (List Token)}
    (hxs : ∀ choice ∈ xs, ∀ token ∈ choice, token.isStructural = false)
    (hys : ∀ choice ∈ ys, ∀ token ∈ choice, token.isStructural = false) :
    ∀ choice ∈ products xs ys, ∀ token ∈ choice, token.isStructural = false := by
  intro choice hchoice token htoken
  obtain ⟨x, hx, hchoice⟩ := List.mem_flatMap.1 hchoice
  obtain ⟨y, hy, rfl⟩ := List.mem_map.1 hchoice
  rcases List.mem_append.1 htoken with htoken | htoken
  · exact hxs x hx token htoken
  · exact hys y hy token htoken

/-- A sequence allows what is left of it without an ellipsis at its start, with the ellipsis
in front. -/
theorem Sequence.mem_choices_of_dropEllipsis {s : Sequence} {choice : List Token}
    (h : choice ∈ s.dropEllipsis.choices) :
    choice ∈ s.choices ∨ .ellipsis :: choice ∈ s.choices := by
  rcases s.ellipsis_or_not with ⟨rest, rfl⟩ | ⟨hdrop, _⟩
  · have h : choice ∈ rest.choices := h
    right
    show .ellipsis :: choice ∈ (Sequence.token .ellipsis rest).choices
    rw [choices, products_singleton]
    exact List.mem_map.2 ⟨choice, h, rfl⟩
  · rw [hdrop] at h
    exact Or.inl h

mutual

theorem Alternation.plain_of_mem_choices : ∀ tree : Alternation, ∀ choice ∈ tree.choices,
    ∀ token ∈ choice, token.isStructural = false
  | .one s => by
    rw [Alternation.choices]
    exact s.plain_of_mem_choices
  | .cons s rest => by
    rw [Alternation.choices]
    intro choice hchoice
    rcases List.mem_append.1 hchoice with hchoice | hchoice
    · exact s.plain_of_mem_choices choice hchoice
    · exact rest.plain_of_mem_choices choice hchoice

/-- Every choice of a sequence is flat. -/
theorem Sequence.plain_of_mem_choices : ∀ tree : Sequence, ∀ choice ∈ tree.choices,
    ∀ token ∈ choice, token.isStructural = false
  | .nil => by simp [Sequence.choices]
  | .token t rest => by
    rw [Sequence.choices]
    refine products_plain ?_ rest.plain_of_mem_choices
    simpa using t.2
  | .group kind inner rest => by
    have hrest := rest.plain_of_mem_choices
    rw [Sequence.choices_group]
    intro choice hchoice
    rcases List.mem_append.1 hchoice with hchoice | hchoice
    · -- The group is left out, so an ellipsis in front of the rest may be missing.
      have hdropped : choice ∈ rest.dropEllipsis.choices := by
        cases kind with
        | required => cases hchoice
        | optional => exact hchoice
      rcases Sequence.mem_choices_of_dropEllipsis hdropped with hmem | hmem
      · exact hrest choice hmem
      · exact fun token htoken => hrest _ hmem token (List.mem_cons_of_mem _ htoken)
    · exact products_plain inner.plain_of_mem_choices hrest choice hchoice

end

/-! ## Flat grammars -/

/-- Plain tokens are a sequence with one choice and no links. -/
theorem exists_sequence_of_plain {tokens : List Token}
    (h : ∀ token ∈ tokens, token.isStructural = false) :
    ∃ s : Sequence, s.tokens = tokens ∧ s.choices = [tokens] ∧
      ∀ position, s.linked position = tokens := by
  induction tokens with
  | nil =>
    refine ⟨.nil, ?_, ?_, fun position => ?_⟩
    · rw [Sequence.tokens]
    · rw [Sequence.choices]
    · rw [Sequence.linked]
  | cons token tokens ih =>
    obtain ⟨s, htokens, hchoices, hlinked⟩ := ih fun t ht => h t (List.mem_cons_of_mem token ht)
    refine ⟨.token ⟨token, h token List.mem_cons_self⟩ s, ?_, ?_, fun position => ?_⟩
    · rw [Sequence.tokens, htokens]
    · rw [Sequence.choices, hchoices]
      rfl
    · rw [Sequence.linked, hlinked]

namespace Grammar

theorem isFlat_iff {g : Grammar} :
    g.isFlat = true ↔ ∀ token ∈ g.tokens, token.isStructural = false := by
  simp [isFlat]

theorem unlinked_of_flat {g : Grammar} (h : g.isFlat = true) : g.unlinked = g := by
  have htokens : g.tokens.map Token.unlinked = g.tokens := by
    refine (List.map_congr_left (g := id) fun token htoken => ?_).trans (List.map_id _)
    exact PlainToken.unlinked_eq ⟨token, isFlat_iff.1 h token htoken⟩
  rw [unlinked, htokens]

theorem balance_of_flat {g : Grammar} (h : g.isFlat = true) : g.balance = .ok g := by
  obtain ⟨s, htokens, _, hlinked⟩ := exists_sequence_of_plain (isFlat_iff.1 h)
  have htree : g.tokens.map Token.unlinked = (Alternation.one s).tokens := by
    rw [Alternation.tokens, htokens]
    exact congrArg tokens (unlinked_of_flat h)
  rw [balance_of_tree htree, Alternation.linked, hlinked]

theorem expand_of_flat {g : Grammar} (h : g.isFlat = true) :
    g.expand none = .ok [⟨spaced g.tokens⟩] := by
  obtain ⟨s, htokens, hchoices, _⟩ := exists_sequence_of_plain (isFlat_iff.1 h)
  have htree : (Alternation.one s).tokens = g.unlinked.tokens := by
    rw [Alternation.tokens, htokens, unlinked_of_flat h]
  rw [expand_unlimited_of_tree htree, Alternation.choices, hchoices]
  rfl

/-! ## Variants -/

theorem flat_and_compacted_of_mem_expand {g : Grammar} {limit : Option Nat}
    {variants : List Grammar} (h : g.expand limit = .ok variants) {v : Grammar}
    (hv : v ∈ variants) : v.isFlat = true ∧ Compacted v.tokens := by
  have hall : g.expand none = .ok variants := by
    cases limit with
    | none => exact h
    | some n => exact (expand_bounded_eq_ok_iff.1 h).1
  obtain ⟨tree, htree⟩ := exists_tree_of_expand h
  rw [expand_unlimited_of_tree htree] at hall
  obtain rfl := Except.ok.inj hall
  obtain ⟨choice, hchoice, rfl⟩ := List.mem_map.1 hv
  refine ⟨isFlat_iff.2 fun token htoken => ?_, compacted_spaced choice⟩
  exact tree.plain_of_mem_choices choice hchoice token
    ((Draft.spaced_sublist choice).mem htoken)

/-- Every variant of a grammar is flat and compacted, balancing it changes nothing, and it is
its own only variant, under every limit that allows one. -/
theorem variants_expand_to_themselves {g : Grammar} {limit : Option Nat}
    {variants : List Grammar} (h : g.expand limit = .ok variants) {v : Grammar}
    (hv : v ∈ variants) :
    v.isFlat = true ∧ Compacted v.tokens ∧ v.balance = .ok v ∧
      v.expand none = .ok [v] ∧ ∀ n, 1 ≤ n → v.expand (some n) = .ok [v] := by
  obtain ⟨hflat, hcompacted⟩ := flat_and_compacted_of_mem_expand h hv
  have hagain : v.expand none = .ok [v] := by
    rw [expand_of_flat hflat, hcompacted.spaced_eq]
  refine ⟨hflat, hcompacted, balance_of_flat hflat, hagain, fun n hn => ?_⟩
  exact expand_bounded_eq_ok_iff.2 ⟨hagain, hn⟩

/-- `x [a] | b` with links that are out of date, under a limit that is reached.  What is left
of the group and of the bar is a separator at the end of `x` and two around `b`. -/
theorem variants_of_three_expand_to_themselves :
    ∃ variants, expand ⟨[.word "x", .separator, .opening .optional (some 40), .word "a",
        .closing .optional none, .bar (some 2) (some 0), .separator, .word "b",
        .separator]⟩ (some 3) = .ok variants ∧
      variants = [⟨[.word "x"]⟩, ⟨[.word "x", .separator, .word "a"]⟩, ⟨[.word "b"]⟩] ∧
      ∀ v ∈ variants, v.isFlat = true ∧ Compacted v.tokens ∧ v.balance = .ok v ∧
        v.expand none = .ok [v] ∧ ∀ n, 1 ≤ n → v.expand (some n) = .ok [v] := by
  have htree : (Alternation.cons (.token ⟨.word "x", rfl⟩ (.token ⟨.separator, rfl⟩
        (.group .optional (.one (.token ⟨.word "a", rfl⟩ .nil)) .nil)))
      (.one (.token ⟨.separator, rfl⟩ (.token ⟨.word "b", rfl⟩
        (.token ⟨.separator, rfl⟩ .nil))))).tokens =
      (unlinked ⟨[.word "x", .separator, .opening .optional (some 40), .word "a",
        .closing .optional none, .bar (some 2) (some 0), .separator, .word "b",
        .separator]⟩).tokens := by decide
  have hexpand := expand_bounded_of_tree htree 3
  rw [if_pos (by decide)] at hexpand
  exact ⟨_, hexpand, by decide, fun v hv => variants_expand_to_themselves hexpand hv⟩

end Grammar

end Synopsis
