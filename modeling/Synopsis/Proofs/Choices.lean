import Synopsis.Grammar.Draft
import Synopsis.Proofs.Tree

/-!
# The choices of a tree

What a usage line allows, read off its tree.  An alternation allows what one of
its sequences allows, a sequence one choice for each of its items, and a group
what its alternation allows.  An optional group can also be left out, and then
an ellipsis directly behind it is left out with it.

The choices come in source order: the leftmost item varies slowest, and leaving
a group out comes before taking part of it.

`spaced` is what becomes of the separators of a choice: its runs of other tokens
stay, with one separator between each two.  `compact_eq_spaced` says that this
is what `Draft.compact` reads off.
-/

namespace Synopsis

/-! ## Products -/

/-- Each choice of `xs` with each choice of `ys` behind it.  The choice of `xs`
varies slowest. -/
def products (xs ys : List (List Token)) : List (List Token) :=
  xs.flatMap fun x => ys.map (x ++ ·)

theorem products_cons (x : List Token) (xs ys : List (List Token)) :
    products (x :: xs) ys = ys.map (x ++ ·) ++ products xs ys := rfl

theorem products_append (xs xs' ys : List (List Token)) :
    products (xs ++ xs') ys = products xs ys ++ products xs' ys := by
  simp [products]

@[simp] theorem products_empty (ys : List (List Token)) : products [[]] ys = ys := by
  simp [products]

theorem products_singleton (x : List Token) (ys : List (List Token)) :
    products [x] ys = ys.map (x ++ ·) := by
  simp [products]

theorem map_products (x : List Token) (xs ys : List (List Token)) :
    (products xs ys).map (x ++ ·) = products (xs.map (x ++ ·)) ys := by
  simp [products, List.map_flatMap, List.flatMap_map, Function.comp_def]

theorem products_assoc (xs ys zs : List (List Token)) :
    products (products xs ys) zs = products xs (products ys zs) := by
  induction xs with
  | nil => rfl
  | cons x xs ih =>
    rw [products_cons, products_append, ih, products_cons, map_products]

/-! ## Choices -/

mutual

/-- The choices of an alternation: those of its sequences, in their order. -/
def Alternation.choices : Alternation → List (List Token)
  | .one s => s.choices
  | .cons s rest => s.choices ++ rest.choices

/-- The choices of a sequence: one choice for each item.  An ellipsis directly
behind an optional group is part of that item. -/
def Sequence.choices : Sequence → List (List Token)
  | .nil => [[]]
  | .token t rest => products [[t.1]] rest.choices
  | .group .required inner rest => products inner.choices rest.choices
  | .group .optional inner (.token ⟨.ellipsis, _⟩ rest) =>
    products ([] :: inner.choices.map (· ++ [.ellipsis])) rest.choices
  | .group .optional inner rest => products ([] :: inner.choices) rest.choices

end

-- `a [b]... c` comes to `a c` and `a b... c`.
example : (Sequence.token ⟨.word "a", rfl⟩ (.group .optional
    (.one (.token ⟨.word "b", rfl⟩ .nil)) (.token PlainToken.ellipsis
      (.token ⟨.word "c", rfl⟩ .nil)))).choices =
    [[.word "a", .word "c"], [.word "a", .word "b", .ellipsis, .word "c"]] := by
  decide

/-- The sequence without an ellipsis at its start. -/
def Sequence.dropEllipsis : Sequence → Sequence
  | .token ⟨.ellipsis, _⟩ rest => rest
  | s => s

/-- What leaving a group out adds to the choices: nothing, unless the group is
optional. -/
def GroupKind.omissions (kind : GroupKind) (choices : List (List Token)) :
    List (List Token) :=
  match kind with
  | required => []
  | optional => choices

/-- A sequence starts with an ellipsis, or it has none to drop. -/
theorem Sequence.ellipsis_or_not (s : Sequence) :
    (∃ rest, s = .token .ellipsis rest) ∨
      s.dropEllipsis = s ∧ ∀ rest, s ≠ .token .ellipsis rest := by
  cases s with
  | nil => exact Or.inr ⟨rfl, fun _ h => by cases h⟩
  | group kind inner rest => exact Or.inr ⟨rfl, fun _ h => by cases h⟩
  | token t rest =>
    obtain ⟨token, hplain⟩ := t
    by_cases h : token = .ellipsis
    · subst h
      exact Or.inl ⟨rest, rfl⟩
    · refine Or.inr ⟨?_, ?_⟩
      · rw [dropEllipsis]
        intro _ _ heq
        exact h (by simpa using (Sequence.token.inj heq).1)
      · intro _ heq
        exact h (congrArg Subtype.val (Sequence.token.inj heq).1)

/-- Either the group is left out, with an ellipsis directly behind it, or one of
its choices stands in its place. -/
theorem Sequence.choices_group (kind : GroupKind) (inner : Alternation)
    (rest : Sequence) :
    (Sequence.group kind inner rest).choices =
      kind.omissions rest.dropEllipsis.choices ++ products inner.choices rest.choices := by
  cases kind with
  | required => simp [choices, GroupKind.omissions]
  | optional =>
    rcases rest.ellipsis_or_not with ⟨rest, rfl⟩ | ⟨hdrop, hne⟩
    · have hend : inner.choices.map (· ++ [Token.ellipsis]) =
          products inner.choices [[Token.ellipsis]] := by
        simp [products, List.map_eq_flatMap]
      show products ([] :: inner.choices.map (· ++ [.ellipsis])) rest.choices =
        rest.choices ++ products inner.choices (products [[.ellipsis]] rest.choices)
      rw [products_cons, hend, products_assoc]
      simp
    · rw [choices, products_cons, hdrop]
      · simp [GroupKind.omissions]
      · intro _ rest' heq
        exact hne rest' heq

mutual

/-- There is always a choice. -/
theorem Alternation.choices_ne_nil : ∀ tree : Alternation, tree.choices ≠ []
  | .one s => by
    rw [Alternation.choices]
    exact s.choices_ne_nil
  | .cons s rest => by
    rw [Alternation.choices]
    exact fun h => s.choices_ne_nil (List.append_eq_nil_iff.1 h).1

theorem Sequence.choices_ne_nil : ∀ tree : Sequence, tree.choices ≠ []
  | .nil => by simp [Sequence.choices]
  | .token t rest => by
    have h := rest.choices_ne_nil
    simpa [Sequence.choices, products_singleton] using h
  | .group kind inner rest => by
    have hinner := inner.choices_ne_nil
    have hrest := rest.choices_ne_nil
    obtain ⟨x, hx⟩ := List.exists_mem_of_ne_nil _ hinner
    rw [Sequence.choices_group]
    intro h
    have hproducts := (List.append_eq_nil_iff.1 h).2
    rw [products, List.flatMap_eq_nil_iff] at hproducts
    exact hrest (List.map_eq_nil_iff.1 (hproducts x hx))

end

/-! ## Separators -/

/-- The runs of other tokens between the separators. -/
def runs (tokens : List Token) : List (List Token) :=
  (tokens.splitOnP Token.isSeparator).filter (· ≠ [])

/-- The tokens with one separator between each two runs of other tokens, and
none at either end. -/
def spaced (tokens : List Token) : List Token :=
  List.intercalate [Token.separator] (runs tokens)

theorem runs_separator (tokens : List Token) :
    runs (.separator :: tokens) = runs tokens := by
  simp [runs, List.splitOnP_cons_eq_if_modifyHead, Token.isSeparator]

theorem spaced_separator (tokens : List Token) :
    spaced (.separator :: tokens) = spaced tokens := by
  rw [spaced, runs_separator, spaced]

theorem intercalate_cons (run : List Token) (later : List (List Token)) :
    List.intercalate [Token.separator] (run :: later) =
      run ++ later.flatMap (Token.separator :: ·) := by
  induction later generalizing run with
  | nil => simp [List.intercalate]
  | cons next later ih =>
    have hstep : List.intercalate [Token.separator] (run :: next :: later) =
        run ++ Token.separator :: List.intercalate [Token.separator] (next :: later) := by
      simp [List.intercalate]
    rw [hstep, ih]
    simp

/-- The first run of a token sequence, which may be empty, and the runs behind
it with a separator before each. -/
def continued (tokens : List Token) : List Token :=
  (tokens.splitOnP Token.isSeparator).headD [] ++
    (((tokens.splitOnP Token.isSeparator).tail).filter (· ≠ [])).flatMap
      (Token.separator :: ·)

theorem continued_separator (tokens : List Token) :
    continued (.separator :: tokens) = (runs tokens).flatMap (Token.separator :: ·) := by
  simp [continued, runs, List.splitOnP_cons_eq_if_modifyHead, Token.isSeparator]

theorem continued_separator_eq (tokens : List Token) :
    continued (.separator :: tokens) =
      if spaced tokens = [] then [] else .separator :: spaced tokens := by
  rw [continued_separator]
  have hruns : ∀ run ∈ runs tokens, run ≠ [] := fun run hrun => by
    simpa using (List.mem_filter.1 hrun).2
  unfold spaced
  cases hr : runs tokens with
  | nil => simp [List.intercalate]
  | cons run later =>
    have hrun : run ≠ [] := hruns run (by simp [hr])
    simp [intercalate_cons, hrun]

section Run

variable {token : Token} (h : token.isSeparator = false) (tokens : List Token)
include h

theorem continued_cons : continued (token :: tokens) = token :: continued tokens := by
  obtain ⟨run, later, hsplit⟩ := List.exists_cons_of_ne_nil
    (List.splitOnP_ne_nil Token.isSeparator tokens)
  simp [continued, List.splitOnP_cons_eq_if_modifyHead, h, hsplit]

theorem spaced_cons : spaced (token :: tokens) = token :: continued tokens := by
  obtain ⟨run, later, hsplit⟩ := List.exists_cons_of_ne_nil
    (List.splitOnP_ne_nil Token.isSeparator tokens)
  simp [spaced, runs, continued, List.splitOnP_cons_eq_if_modifyHead, h, hsplit,
    intercalate_cons]

theorem runs_cons_ne_nil : runs (token :: tokens) ≠ [] := by
  obtain ⟨run, later, hsplit⟩ := List.exists_cons_of_ne_nil
    (List.splitOnP_ne_nil Token.isSeparator tokens)
  simp [runs, List.splitOnP_cons_eq_if_modifyHead, h, hsplit]

end Run

namespace Draft

theorem squeeze_eq_nil_iff (tokens : List Token) :
    squeeze true tokens = [] ↔ runs tokens = [] := by
  induction tokens with
  | nil => simp [squeeze, runs]
  | cons token tokens ih =>
    cases hsep : token.isSeparator with
    | true =>
      obtain rfl : token = .separator := by cases token <;> simp_all [Token.isSeparator]
      rw [runs_separator, ← ih]
      simp [squeeze, hsep]
    | false => simp [squeeze, hsep, runs_cons_ne_nil hsep]

theorem dropLastSeparator_cons (token : Token) (tokens : List Token) :
    dropLastSeparator (token :: tokens) =
      if tokens = [] ∧ token.isSeparator = true then [] else
        token :: dropLastSeparator tokens := by
  cases tokens with
  | nil => by_cases h : token.isSeparator = true <;> simp [dropLastSeparator, h]
  | cons next tokens =>
    simp only [dropLastSeparator, List.getLast?_cons_cons, reduceCtorEq, false_and,
      if_false]
    split <;> simp

/-- What compaction makes of a token sequence, at its start and behind a token
that is no separator. -/
theorem dropLastSeparator_squeeze (tokens : List Token) :
    dropLastSeparator (squeeze true tokens) = spaced tokens ∧
      dropLastSeparator (squeeze false tokens) = continued tokens := by
  induction tokens with
  | nil => simp [squeeze, dropLastSeparator, spaced, runs, continued, List.intercalate]
  | cons token tokens ih =>
    cases hsep : token.isSeparator with
    | true =>
      obtain rfl : token = .separator := by cases token <;> simp_all [Token.isSeparator]
      constructor
      · rw [spaced_separator]
        simpa [squeeze, hsep] using ih.1
      · rw [continued_separator, squeeze]
        simp only [hsep, Bool.and_false, Bool.false_eq_true, if_false]
        rw [dropLastSeparator_cons, ih.1]
        simp only [squeeze_eq_nil_iff, spaced, hsep, and_true]
        cases runs tokens with
        | nil => simp
        | cons run later => simp [intercalate_cons]
    | false =>
      rw [spaced_cons hsep, continued_cons hsep, squeeze, squeeze]
      simp only [hsep, Bool.false_and, Bool.false_eq_true, if_false]
      rw [dropLastSeparator_cons, ih.2]
      simp [hsep]

/-- A draft is read off with single separators between the runs of its tokens. -/
theorem compact_eq_spaced (d : Draft) : d.compact = ⟨spaced (d.filterMap id)⟩ := by
  rw [compact, (dropLastSeparator_squeeze _).1]

end Draft

end Synopsis
