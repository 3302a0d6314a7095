import Synopsis.Proofs.Expansion
import Synopsis.Proofs.Faults

/-!
# The limit on variants is exact

The number of variants of a grammar can be read off its tree without listing them:
alternatives add up, the groups of a sequence multiply, and an optional group has one
more choice than its alternation (`Alternation.count`).

Variants are collected one at a time, and the limit is tested before each of them.  So
`foldlM_addVariant_bounded` compares the whole number with the limit.  With it,
`expand_limit_exact` says for every grammar and every limit what expanding comes to.
-/

namespace Synopsis

/-! ## Counting choices -/

mutual

/-- The number of choices of an alternation: the sum over its sequences. -/
def Alternation.count : Alternation → Nat
  | .one s => s.count
  | .cons s rest => s.count + rest.count

/-- The number of choices of a sequence: the product over its groups. -/
def Sequence.count : Sequence → Nat
  | .nil => 1
  | .token _ rest => rest.count
  | .group .required inner rest => inner.count * rest.count
  | .group .optional inner rest => (1 + inner.count) * rest.count

end

-- `(a|[b]) [c]`
example : (Sequence.group .required (.cons (.token ⟨.word "a", rfl⟩ .nil)
    (.one (.group .optional (.one (.token ⟨.word "b", rfl⟩ .nil)) .nil)))
    (.group .optional (.one (.token ⟨.word "c", rfl⟩ .nil)) .nil)).count = 6 := by
  decide

theorem length_products (xs ys : List (List Token)) :
    (products xs ys).length = xs.length * ys.length := by
  induction xs with
  | nil => simp [products]
  | cons x xs ih =>
    rw [products_cons, List.length_append, ih, List.length_map, List.length_cons,
      Nat.succ_mul, Nat.add_comm]

/-- An ellipsis adds no choice. -/
theorem Sequence.length_choices_dropEllipsis (s : Sequence) :
    s.dropEllipsis.choices.length = s.choices.length := by
  rcases s.ellipsis_or_not with ⟨rest, rfl⟩ | ⟨hdrop, _⟩
  · show rest.choices.length = (Sequence.token .ellipsis rest).choices.length
    rw [choices, products_singleton, List.length_map]
  · rw [hdrop]

mutual

/-- An alternation has as many choices as its tree says. -/
theorem Alternation.length_choices : ∀ tree : Alternation,
    tree.choices.length = tree.count
  | .one s => by
    rw [Alternation.choices, Alternation.count]
    exact s.length_choices
  | .cons s rest => by
    rw [Alternation.choices, Alternation.count, List.length_append, s.length_choices,
      rest.length_choices]

theorem Sequence.length_choices : ∀ tree : Sequence, tree.choices.length = tree.count
  | .nil => by
    rw [Sequence.choices, Sequence.count]
    rfl
  | .token t rest => by
    rw [Sequence.choices, Sequence.count, products_singleton, List.length_map]
    exact rest.length_choices
  | .group kind inner rest => by
    have hinner := inner.length_choices
    have hrest := rest.length_choices
    rw [Sequence.choices_group, List.length_append, length_products, hinner, hrest]
    cases kind with
    | required =>
      show 0 + inner.count * rest.count = _
      rw [Sequence.count, Nat.zero_add]
    | optional =>
      show rest.dropEllipsis.choices.length + inner.count * rest.count = _
      rw [rest.length_choices_dropEllipsis, hrest, Sequence.count, Nat.add_mul, Nat.one_mul]

end

/-- A draft that offers choices offers one at least. -/
theorem Draft.Offers.length_pos {position : Nat} {d : Draft} {cs : List (List Token)}
    (h : Draft.Offers position d cs) : 0 < cs.length := by
  induction h with
  | nil => exact Nat.one_pos
  | gap _ ih => exact ih
  | token _ _ ih => simpa using ih
  | group kind inner _ _ ih _ =>
    have hinner := List.length_pos_iff.2 inner.choices_ne_nil
    rw [List.length_append, length_products]
    exact Nat.add_pos_right _ (Nat.mul_pos hinner ih)

/-! ## Collecting under a limit -/

namespace Draft

/-- Adding variants one at a time succeeds exactly when the limit allows them all. -/
theorem foldlM_addVariant_bounded {n : Nat} (variants : List Grammar)
    (found : Array Grammar) (hfound : found.size ≤ n) :
    variants.foldlM (addVariant (some n)) found =
      if found.size + variants.length ≤ n then .ok (found ++ variants.toArray)
      else .error (.tooManyVariants n) := by
  induction variants generalizing found with
  | nil => simp [hfound, pure, Except.pure]
  | cons v variants ih =>
    rw [List.foldlM_cons]
    by_cases hfull : n ≤ found.size
    · have hadd : addVariant (some n) found v = .error (.tooManyVariants n) := by
        simp [addVariant, hfull]
      have hover : ¬ found.size + (v :: variants).length ≤ n := by
        rw [List.length_cons]
        omega
      rw [hadd, if_neg hover]
      rfl
    · have hadd : addVariant (some n) found v = .ok (found.push v) := by
        simp [addVariant, hfull]
      have hlater := ih (found.push v) (by rw [Array.size_push]; omega)
      rw [hadd]
      show variants.foldlM (addVariant (some n)) (found.push v) = _
      rw [hlater, Array.size_push, List.length_cons, Nat.add_assoc, Nat.add_comm 1]
      simp

end Draft

/-! ## Faults do not depend on links -/

namespace Linking

/-- A step reads the frames and the shape of the token only. -/
theorem step_unlinked {s s' : Linking} (hframes : s'.frames = s.frames) (token : Token)
    (position : Nat) :
    (∃ fault, s.step token position = .error fault ∧
      s'.step token.unlinked position = .error fault) ∨
    ∃ t t', s.step token position = .ok t ∧ s'.step token.unlinked position = .ok t' ∧
      t'.frames = t.frames := by
  obtain ⟨tokens, frames, topBar⟩ := s
  obtain ⟨tokens', frames', topBar'⟩ := s'
  obtain rfl : frames' = frames := hframes
  cases token with
  | separator | word | option | positional | ellipsis =>
    exact Or.inr ⟨_, _, rfl, rfl, rfl⟩
  | opening kind p => exact Or.inr ⟨_, _, rfl, rfl, rfl⟩
  | bar start next =>
    cases frames' with
    | nil => exact Or.inr ⟨_, _, rfl, rfl, rfl⟩
    | cons frame outer => exact Or.inr ⟨_, _, rfl, rfl, rfl⟩
  | closing kind p =>
    cases frames' with
    | nil => exact Or.inl ⟨_, rfl, rfl⟩
    | cons frame outer =>
      by_cases hkind : frame.kind = kind
      · subst hkind
        exact Or.inr ⟨_, _, step_closing p position, step_closing none position, rfl⟩
      · left
        refine ⟨.mismatchedGroup frame.opening position, ?_, ?_⟩
        · simp [step, hkind]
        · simp [step, Token.unlinked, hkind]

/-- Two passes over sequences of one shape end with the same fault, or with none. -/
theorem fault_run_unlinked (ts : List Token) {s s' : Linking} (hframes : s'.frames = s.frames)
    (position : Nat) :
    (s'.run position (ts.map Token.unlinked)).2 = (s.run position ts).2 := by
  induction ts generalizing s s' position with
  | nil => simp [run, hframes]
  | cons token ts ih =>
    rcases step_unlinked hframes token position with ⟨fault, hs, hs'⟩ | ⟨t, t', hs, hs', ht⟩
    · simp [run, hs, hs']
    · rw [List.map_cons, run_cons hs, run_cons hs']
      exact ih ht (position + 1)

end Linking

namespace Grammar

theorem balance_eq_error_iff {g : Grammar} {fault : Fault} :
    g.balance = .error fault ↔ g.link.2 = some fault := by
  unfold balance
  rcases g.link with ⟨linked, _ | fault'⟩
  · simp
  · simp

theorem unlinked_unlinked (g : Grammar) : g.unlinked.unlinked = g.unlinked := by
  have htoken : Token.unlinked ∘ Token.unlinked = Token.unlinked := by
    funext token
    cases token <;> rfl
  simp only [unlinked, List.map_map, htoken]

theorem balance_unlinked_eq_error_iff {g : Grammar} {fault : Fault} :
    g.unlinked.balance = .error fault ↔ g.balance = .error fault := by
  rw [balance_eq_error_iff, balance_eq_error_iff]
  have hframes : (⟨g.unlinked.tokens, [], none⟩ : Linking).frames =
      (⟨g.tokens, [], none⟩ : Linking).frames := rfl
  have hfault : g.unlinked.link.2 = g.link.2 :=
    Linking.fault_run_unlinked g.tokens hframes 0
  rw [hfault]

/-! ## Expanding under a limit -/

theorem expand_of_balance_error {g : Grammar} {fault : Fault} (h : g.balance = .error fault)
    (limit : Option Nat) : g.expand limit = .error fault := by
  rw [expand, h]

/-- A grammar that can be read as a tree expands under a limit exactly when its choices
are not more than the limit. -/
theorem expand_bounded_of_tree {g : Grammar} {tree : Alternation}
    (h : tree.tokens = g.unlinked.tokens) (n : Nat) :
    g.expand (some n) =
      if tree.count ≤ n then .ok (tree.choices.map variant)
      else .error (.tooManyVariants n) := by
  rw [expand_of_tree h, Draft.foldlM_addVariant_bounded _ #[] (Nat.zero_le n)]
  simp only [List.size_toArray, List.length_nil, Nat.zero_add, List.length_map,
    tree.length_choices]
  split
  · simp [Except.map]
  · rfl

/-- A grammar that expands can be read as a tree. -/
theorem exists_tree_of_expand {g : Grammar} {limit : Option Nat} {variants : List Grammar}
    (h : g.expand limit = .ok variants) :
    ∃ tree : Alternation, tree.tokens = g.unlinked.tokens := by
  cases hbalance : g.balance with
  | error fault =>
    rw [expand_of_balance_error hbalance] at h
    cases h
  | ok linked => exact exists_tree (wellNested_of_balance hbalance)

/-- A limit is reported when there are more variants than it allows, and otherwise it does
nothing. -/
theorem expand_bounded_of_unlimited {g : Grammar} {variants : List Grammar}
    (h : g.expand none = .ok variants) (n : Nat) :
    g.expand (some n) =
      if variants.length ≤ n then .ok variants else .error (.tooManyVariants n) := by
  obtain ⟨tree, htree⟩ := exists_tree_of_expand h
  rw [expand_unlimited_of_tree htree] at h
  obtain rfl := Except.ok.inj h
  rw [expand_bounded_of_tree htree, List.length_map, tree.length_choices]

theorem expand_bounded_eq_ok_iff {g : Grammar} {n : Nat} {variants : List Grammar} :
    g.expand (some n) = .ok variants ↔ g.expand none = .ok variants ∧ variants.length ≤ n := by
  constructor
  · intro h
    obtain ⟨tree, htree⟩ := exists_tree_of_expand h
    have hall := expand_unlimited_of_tree htree
    rw [expand_bounded_of_unlimited hall] at h
    split at h
    · rename_i hle
      obtain rfl := Except.ok.inj h
      exact ⟨hall, hle⟩
    · cases h
  · rintro ⟨h, hle⟩
    rw [expand_bounded_of_unlimited h, if_pos hle]

/-- Expanding a grammar under a limit fails as balancing its shape does.  When the groups
nest, the number of variants is that of the tree: within the limit all of them are
listed, and beyond it the limit is reported.  No other fault is left then, with a limit or
without one. -/
theorem expand_limit_exact (g : Grammar) (n : Nat) :
    (∀ fault, g.unlinked.balance = .error fault → g.expand (some n) = .error fault) ∧
    (∀ linked, g.unlinked.balance = .ok linked →
      (∃ tree : Alternation, tree.tokens = g.unlinked.tokens) ∧
      (∀ tree : Alternation, tree.tokens = g.unlinked.tokens →
        ∃ variants, g.expand none = .ok variants ∧ variants.length = tree.count ∧
          (tree.count ≤ n → g.expand (some n) = .ok variants) ∧
          (n < tree.count → g.expand (some n) = .error (.tooManyVariants n))) ∧
      ∀ limit fault, g.expand limit = .error fault →
        ∃ m, limit = some m ∧ fault = .tooManyVariants m) := by
  refine ⟨fun fault h => ?_, fun linked h => ?_⟩
  · exact expand_of_balance_error (balance_unlinked_eq_error_iff.1 h) (some n)
  · obtain ⟨tree, htree⟩ := exists_tree (wellNested_of_balance h)
    have htree : tree.tokens = g.unlinked.tokens :=
      htree.trans (congrArg tokens g.unlinked_unlinked)
    refine ⟨⟨tree, htree⟩, fun tree htree => ?_, fun limit fault hfault => ?_⟩
    · have hbounded := expand_bounded_of_tree htree n
      refine ⟨tree.choices.map variant, expand_unlimited_of_tree htree, ?_, ?_, ?_⟩
      · rw [List.length_map, tree.length_choices]
      · intro hle
        rw [hbounded, if_pos hle]
      · intro hlt
        rw [hbounded, if_neg (Nat.not_le.2 hlt)]
    · cases limit with
      | none =>
        rw [expand_unlimited_of_tree htree] at hfault
        cases hfault
      | some m =>
        rw [expand_bounded_of_tree htree] at hfault
        split at hfault
        · cases hfault
        · exact ⟨m, rfl, (Except.error.inj hfault).symm⟩

/-- `[a] (b|c)` has four variants, and `(a]` none under any limit. -/
theorem expand_limit_of_four :
    expand ⟨[.opening .optional (some 9), .word "a", .closing .optional none, .separator,
      .opening .required none, .word "b", .bar none none, .word "c",
      .closing .required none]⟩ (some 3) = .error (.tooManyVariants 3) ∧
    expand ⟨[.opening .required none, .word "a", .closing .optional (some 0)]⟩ (some 3) =
      .error (.mismatchedGroup 0 2) := by
  constructor
  · have hbalance := (expand_limit_exact ⟨[.opening .optional (some 9), .word "a",
      .closing .optional none, .separator, .opening .required none, .word "b",
      .bar none none, .word "c", .closing .required none]⟩ 3).2 _ rfl
    obtain ⟨variants, _, _, _, hbeyond⟩ := hbalance.2.1
      (.one (.group .optional (.one (.token ⟨.word "a", rfl⟩ .nil))
        (.token ⟨.separator, rfl⟩ (.group .required
          (.cons (.token ⟨.word "b", rfl⟩ .nil) (.one (.token ⟨.word "c", rfl⟩ .nil)))
          .nil)))) (by decide)
    exact hbeyond (by decide)
  · exact (expand_limit_exact ⟨[.opening .required none, .word "a",
      .closing .optional (some 0)]⟩ 3).1 _ rfl

end Grammar

end Synopsis
