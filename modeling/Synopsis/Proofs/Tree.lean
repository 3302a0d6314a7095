import Synopsis.Grammar.Basic

/-!
# The tree of a grammar

A grammar is a flat token sequence.  When its groups nest it can be read as a
tree: an alternation is a list of sequences with bars between them, a sequence
holds plain tokens and groups, and a group holds an alternation.

`WellNested` is the language of the token sequences whose groups nest.
`Alternation` and `Sequence` are the trees, and `tokens` writes a tree down
without links.  `exists_tree` and `wellNested_tokens` say that the token
sequences of trees are exactly the well nested ones.
-/

namespace Synopsis

/-! ## Well nested token sequences -/

/-- The token sequences whose groups nest and close with their own kind. -/
inductive WellNested : List Token → Prop
  | nil : WellNested []
  | plain {token : Token} {rest : List Token} (h : token.isStructural = false)
      (hrest : WellNested rest) : WellNested (token :: rest)
  | bar {start next : Option Nat} {rest : List Token} (hrest : WellNested rest) :
      WellNested (.bar start next :: rest)
  | group {kind : GroupKind} {p q : Option Nat} {inner rest : List Token}
      (hinner : WellNested inner) (hrest : WellNested rest) :
      WellNested (.opening kind p :: (inner ++ .closing kind q :: rest))

theorem WellNested.append {left right : List Token} (hl : WellNested left)
    (hr : WellNested right) : WellNested (left ++ right) := by
  induction hl with
  | nil => exact hr
  | plain h _ ih => exact .plain h ih
  | bar _ ih => exact .bar ih
  | group hinner _ _ ih =>
    simp only [List.cons_append, List.append_assoc]
    exact .group hinner ih

/-- Links do not matter for nesting. -/
theorem WellNested.of_unlinked {ts us : List Token} (h : WellNested us)
    (hts : ts.map Token.unlinked = us) : WellNested ts := by
  induction h generalizing ts with
  | nil =>
    obtain rfl := List.map_eq_nil_iff.1 hts
    exact .nil
  | @plain token rest h _ ih =>
    obtain ⟨first, later, rfl, hfirst, hlater⟩ := List.map_eq_cons_iff.1 hts
    have hplain : first.isStructural = false := by
      subst hfirst
      cases first <;> first | rfl | cases h
    exact .plain hplain (ih hlater)
  | bar _ ih =>
    obtain ⟨first, later, rfl, hfirst, hlater⟩ := List.map_eq_cons_iff.1 hts
    cases first <;> cases hfirst
    exact .bar (ih hlater)
  | group _ _ ihinner ihrest =>
    obtain ⟨first, region, rfl, hfirst, hregion⟩ := List.map_eq_cons_iff.1 hts
    obtain ⟨inside, others, rfl, hinside, hothers⟩ := List.map_eq_append_iff.1 hregion
    obtain ⟨last, later, rfl, hlast, hlater⟩ := List.map_eq_cons_iff.1 hothers
    cases first <;> cases hfirst
    cases last <;> cases hlast
    exact .group (ihinner hinside) (ihrest hlater)

/-! ## Trees -/

/-- A token that is no mark of structure. -/
abbrev PlainToken := { token : Token // token.isStructural = false }

namespace PlainToken

/-- The ellipsis as a plain token. -/
def ellipsis : PlainToken := ⟨.ellipsis, rfl⟩

theorem unlinked_eq (token : PlainToken) : token.1.unlinked = token.1 := by
  obtain ⟨token, h⟩ := token
  cases token <;> first | rfl | cases h

end PlainToken

mutual

/-- Sequences with bars between them. -/
inductive Alternation
  | one (sequence : Sequence)
  | cons (sequence : Sequence) (rest : Alternation)

/-- Plain tokens and groups, one behind the other. -/
inductive Sequence
  | nil
  | token (token : PlainToken) (rest : Sequence)
  | group (kind : GroupKind) (inner : Alternation) (rest : Sequence)

end

mutual

/-- The tokens of an alternation, without links. -/
def Alternation.tokens : Alternation → List Token
  | .one sequence => sequence.tokens
  | .cons sequence rest => sequence.tokens ++ .bar none none :: rest.tokens

/-- The tokens of a sequence, without links. -/
def Sequence.tokens : Sequence → List Token
  | .nil => []
  | .token token rest => token.1 :: rest.tokens
  | .group kind inner rest =>
    .opening kind none :: (inner.tokens ++ .closing kind none :: rest.tokens)

end

/-- The number of tokens of an alternation. -/
def Alternation.width (tree : Alternation) : Nat :=
  tree.tokens.length

/-- The number of tokens of a sequence. -/
def Sequence.width (tree : Sequence) : Nat :=
  tree.tokens.length

@[simp] theorem Alternation.width_one (s : Sequence) :
    (Alternation.one s).width = s.width := by
  simp [Alternation.width, Sequence.width, Alternation.tokens]

@[simp] theorem Alternation.width_cons (s : Sequence) (rest : Alternation) :
    (Alternation.cons s rest).width = s.width + 1 + rest.width := by
  simp only [Alternation.width, Sequence.width, Alternation.tokens,
    List.length_append, List.length_cons]
  omega

@[simp] theorem Sequence.width_nil : Sequence.nil.width = 0 := by
  simp [Sequence.width, Sequence.tokens]

@[simp] theorem Sequence.width_token (t : PlainToken) (rest : Sequence) :
    (Sequence.token t rest).width = rest.width + 1 := by
  simp [Sequence.width, Sequence.tokens]

@[simp] theorem Sequence.width_group (kind : GroupKind) (inner : Alternation)
    (rest : Sequence) :
    (Sequence.group kind inner rest).width = inner.width + 2 + rest.width := by
  simp only [Alternation.width, Sequence.width, Sequence.tokens,
    List.length_append, List.length_cons]
  omega

/-! ## Trees write down what nests -/

mutual

theorem Alternation.wellNested_tokens : ∀ tree : Alternation,
    WellNested tree.tokens
  | .one s => by
    rw [Alternation.tokens]
    exact s.wellNested_tokens
  | .cons s rest => by
    rw [Alternation.tokens]
    exact s.wellNested_tokens.append (.bar rest.wellNested_tokens)

theorem Sequence.wellNested_tokens : ∀ tree : Sequence, WellNested tree.tokens
  | .nil => by
    rw [Sequence.tokens]
    exact .nil
  | .token t rest => by
    rw [Sequence.tokens]
    exact .plain t.2 rest.wellNested_tokens
  | .group kind inner rest => by
    rw [Sequence.tokens]
    exact .group inner.wellNested_tokens rest.wellNested_tokens

end

/-! ## What nests can be read as a tree -/

/-- The alternation with its first sequence changed. -/
def Alternation.mapFirst (f : Sequence → Sequence) : Alternation → Alternation
  | .one s => .one (f s)
  | .cons s rest => .cons (f s) rest

/-- A change that writes `before` in front of a sequence writes it in front of
the alternation. -/
theorem Alternation.tokens_mapFirst {f : Sequence → Sequence} {before : List Token}
    (hf : ∀ s, (f s).tokens = before ++ s.tokens) (tree : Alternation) :
    (tree.mapFirst f).tokens = before ++ tree.tokens := by
  cases tree with
  | one s => simp only [mapFirst, Alternation.tokens, hf]
  | cons s rest => simp only [mapFirst, Alternation.tokens, hf, List.append_assoc]

/-- Every well nested token sequence is that of a tree, up to its links. -/
theorem exists_tree {ts : List Token} (h : WellNested ts) :
    ∃ tree : Alternation, tree.tokens = ts.map Token.unlinked := by
  induction h with
  | nil => exact ⟨.one .nil, by simp [Alternation.tokens, Sequence.tokens]⟩
  | @plain token rest h _ ih =>
    obtain ⟨tree, htree⟩ := ih
    refine ⟨tree.mapFirst (.token ⟨token, h⟩), ?_⟩
    have hfirst : ∀ s, (Sequence.token ⟨token, h⟩ s).tokens = [token] ++ s.tokens :=
      fun s => by simp [Sequence.tokens]
    rw [Alternation.tokens_mapFirst hfirst, htree]
    simp [PlainToken.unlinked_eq ⟨token, h⟩]
  | bar _ ih =>
    obtain ⟨tree, htree⟩ := ih
    refine ⟨.cons .nil tree, ?_⟩
    simp [Alternation.tokens, Sequence.tokens, htree, Token.unlinked]
  | @group kind p q inner rest _ _ ihinner ihrest =>
    obtain ⟨inside, hinside⟩ := ihinner
    obtain ⟨tree, htree⟩ := ihrest
    refine ⟨tree.mapFirst (.group kind inside), ?_⟩
    have hfirst : ∀ s, (Sequence.group kind inside s).tokens =
        .opening kind none :: (inside.tokens ++ [.closing kind none]) ++ s.tokens :=
      fun s => by simp [Sequence.tokens]
    rw [Alternation.tokens_mapFirst hfirst, htree, hinside]
    simp [Token.unlinked]

end Synopsis
