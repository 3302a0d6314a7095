import Synopsis.Grammar.Variants
import Synopsis.Proofs.Decisions

/-!
# Expansion lists the choices of the tree

`Draft.collect` follows the first decision of a draft into each draft that the
decision leads to.  `collect_offers` says what it has added to the variants found
before: one variant for each choice that the draft offers, in the order of the
choices.  The induction is on the number of structural tokens left.

`expand_eq_choices` is the refinement: a grammar whose groups nest can be read as
a tree, and expanding it lists the choices of the tree.
-/

namespace Synopsis

/-- The variant that a choice comes to. -/
def variant (choice : List Token) : Grammar :=
  ⟨spaced choice⟩

namespace Draft

theorem compact_eq_variant (d : Draft) : d.compact = variant (d.filterMap id) :=
  d.compact_eq_spaced

theorem collect_finished {limit : Option Nat} {d : Draft} (h : d.outcome = .finished)
    (found : Array Grammar) :
    collect limit d found = addVariant limit found d.compact := by
  rw [collect]
  split <;> simp_all

/-- What holds of collecting each draft holds of collecting them in turn. -/
theorem OffersEach.foldlM {limit : Option Nat} {drafts : List Draft}
    {cs : List (List Token)} (h : OffersEach 0 drafts cs)
    (hcollect : ∀ d ∈ drafts, ∀ cs, Offers 0 d cs → ∀ found,
      collect limit d found = (cs.map variant).foldlM (addVariant limit) found)
    (found : Array Grammar) :
    drafts.foldlM (fun found d => collect limit d found) found =
      (cs.map variant).foldlM (addVariant limit) found := by
  induction h generalizing found with
  | nil => rfl
  | cons h _ ih =>
    have hlater := ih fun d hd => hcollect d (by simp [hd])
    rw [List.foldlM_cons, hcollect _ (by simp) _ h, List.map_append, List.foldlM_append]
    simp only [hlater]

/-- Collecting a draft adds a variant for each choice that it offers. -/
theorem collect_offers {limit : Option Nat} {d : Draft} {cs : List (List Token)}
    (h : Offers 0 d cs) (found : Array Grammar) :
    collect limit d found = (cs.map variant).foldlM (addVariant limit) found := by
  generalize hn : d.marks = n
  induction n using Nat.strongRecOn generalizing d cs found with
  | ind n ih =>
    subst hn
    rcases exists_choices h with ⟨hfinished, rfl⟩ | ⟨drafts, hchoices, heach⟩
    · rw [collect_finished hfinished, compact_eq_variant]
      simp
    · rw [collect_choices hchoices]
      refine heach.foldlM (fun c hc cs hoffers found => ?_) found
      exact ih c.marks (marks_lt_of_mem_choices hchoices hc) hoffers found rfl

/-- Collecting a balanced grammar adds a variant for each choice of its tree. -/
theorem collect_linked {limit : Option Nat} (tree : Alternation) (found : Array Grammar) :
    collect limit ((tree.linked none none 0).map some) found =
      (tree.choices.map variant).foldlM (addVariant limit) found := by
  rcases exists_choices_linked tree rfl with h | ⟨drafts, hchoices, heach⟩
  · exact collect_offers h found
  · rw [collect_choices hchoices]
    exact heach.foldlM (fun _ _ _ h found => collect_offers h found) found

theorem foldlM_addVariant (variants : List Grammar) (found : Array Grammar) :
    variants.foldlM (addVariant none) found = .ok (found ++ variants.toArray) := by
  induction variants generalizing found with
  | nil => simp [pure, Except.pure]
  | cons v variants ih =>
    rw [List.foldlM_cons]
    show variants.foldlM (addVariant none) (found.push v) = _
    rw [ih]
    simp

end Draft

namespace Grammar

/-- Expanding a grammar that can be read as a tree collects the choices of the
tree, up to the limit. -/
theorem expand_of_tree {g : Grammar} {tree : Alternation}
    (h : tree.tokens = g.unlinked.tokens) (limit : Option Nat) :
    g.expand limit =
      ((tree.choices.map variant).foldlM (Draft.addVariant limit) #[]).map Array.toList := by
  have hbalance : g.balance = .ok ⟨tree.linked none none 0⟩ := balance_of_tree h.symm
  rw [expand, hbalance]
  show (Draft.collect limit ((tree.linked none none 0).map some) #[]).map _ = _
  rw [Draft.collect_linked]

/-- Without a limit the variants are all the choices of the tree. -/
theorem expand_unlimited_of_tree {g : Grammar} {tree : Alternation}
    (h : tree.tokens = g.unlinked.tokens) :
    g.expand none = .ok (tree.choices.map variant) := by
  rw [expand_of_tree h, Draft.foldlM_addVariant]
  simp [Except.map]

/-- A grammar whose groups nest can be read as a tree, whatever its links are, and
its variants are the choices of the tree in their order, each with its separators
compacted. -/
theorem expand_eq_choices (g : Grammar) (h : WellNested g.tokens) :
    (∃ tree : Alternation, tree.tokens = g.unlinked.tokens) ∧
      ∀ tree : Alternation, tree.tokens = g.unlinked.tokens →
        g.expand none = .ok (tree.choices.map fun choice => ⟨spaced choice⟩) := by
  refine ⟨exists_tree h, fun tree htree => ?_⟩
  exact expand_unlimited_of_tree htree

/-- `a | [b | c]... d`, with links that are out of date. -/
theorem expand_group_behind_bar :
    Grammar.expand ⟨[.word "a", .separator, .bar (some 7) none, .separator,
      .opening .optional (some 0), .word "b", .bar none none, .word "c",
      .closing .optional none, .ellipsis, .separator, .word "d"]⟩ none =
      .ok [⟨[.word "a"]⟩, ⟨[.word "d"]⟩,
        ⟨[.word "b", .ellipsis, .separator, .word "d"]⟩,
        ⟨[.word "c", .ellipsis, .separator, .word "d"]⟩] := by
  have hgroup : WellNested [.opening .optional (some 0), .word "b", .bar none none,
      .word "c", .closing .optional none, .ellipsis, .separator, .word "d"] :=
    @WellNested.group _ _ _ [_, _, _] _ (.plain rfl (.bar (.plain rfl .nil)))
      (.plain rfl (.plain rfl (.plain rfl .nil)))
  have hnested := @WellNested.plain (.word "a") _ rfl (@WellNested.plain .separator _ rfl
    (@WellNested.bar (some 7) none _ (@WellNested.plain .separator _ rfl hgroup)))
  have h := (expand_eq_choices ⟨_⟩ hnested).2
    (.cons (.token ⟨.word "a", rfl⟩ (.token ⟨.separator, rfl⟩ .nil))
      (.one (.token ⟨.separator, rfl⟩ (.group .optional
        (.cons (.token ⟨.word "b", rfl⟩ .nil) (.one (.token ⟨.word "c", rfl⟩ .nil)))
        (.token .ellipsis (.token ⟨.separator, rfl⟩ (.token ⟨.word "d", rfl⟩ .nil)))))))
    (by decide)
  exact h.trans (congrArg Except.ok (by decide))

end Grammar

end Synopsis
