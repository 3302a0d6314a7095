import Synopsis.Proofs.Faults

/-!
# Links up to a position

The tokens before a position need not nest, and what stands behind it can be anything.  So the
links that a pass has set by then are told by the groups that are open (`OpenGroup`), and not by
the groups around a token.

* `StopsAlternative` is what a bar is to be linked to.  There is one such position at most.
* `LinkedUpTo` says which links a token has when the pass has come to a position.  It has one
  lemma for each thing that the next token can do to it (`stay`, `close` and `chain`), and
  `LinkedUpTo.again` for a second pass.
* None of this depends on the links of the sequence itself (`LinkedUpTo.of_shape`).
-/

namespace Synopsis

/-! ## Open groups -/

/-- The opening half of the innermost group that is open at `k`, if one is open there. -/
inductive OpenGroup (ts : List Token) (k : Nat) : Option Nat → Prop
  | outside (h : ∀ o, ¬ OpenAt ts o k) : OpenGroup ts k none
  | inside {o : Nat} (h : InnermostOpen ts o k) : OpenGroup ts k (some o)

/-- The same group is the innermost one that is open at both positions, or none is. -/
def SameOpenGroup (ts : List Token) (k m : Nat) : Prop :=
  ∃ group, OpenGroup ts k group ∧ OpenGroup ts m group

/-- What the bar at `k` is to be linked to: the next bar of the same group, or its closing
half when there is no such bar before it. -/
structure StopsAlternative (ts : List Token) (k m : Nat) : Prop where
  limit : (k < m ∧ IsBar ts m ∧ SameOpenGroup ts k m) ∨ ∃ o, InnermostOpen ts o k ∧ Mates ts o m
  first : ∀ i, k < i → i < m → IsBar ts i → ¬ SameOpenGroup ts k i

section Open

variable {ts : List Token} {k m o o' : Nat} {group group' : Option Nat}

theorem InnermostOpen.unique (h : InnermostOpen ts o k) (h' : InnermostOpen ts o' k) : o = o' :=
  Nat.le_antisymm (h'.innermost o h.isOpen) (h.innermost o' h'.isOpen)

theorem OpenGroup.unique (h : OpenGroup ts k group) (h' : OpenGroup ts k group') :
    group = group' := by
  cases h with
  | outside h =>
    cases h' with
    | outside _ => rfl
    | inside h' => exact absurd h'.isOpen (h _)
  | inside h =>
    cases h' with
    | outside h' => exact absurd h.isOpen (h' _)
    | inside h' => rw [h.unique h']

theorem OpenGroup.innermostOpen (h : OpenGroup ts k (some o)) : InnermostOpen ts o k := by
  cases h with
  | inside h => exact h

theorem SameOpenGroup.right (h : SameOpenGroup ts k m) (hk : OpenGroup ts k group) :
    OpenGroup ts m group := by
  obtain ⟨group', hk', hm⟩ := h
  rwa [hk.unique hk']

theorem SameOpenGroup.left (h : SameOpenGroup ts k m) (hm : OpenGroup ts m group) :
    OpenGroup ts k group := by
  obtain ⟨group', hk, hm'⟩ := h
  rwa [hm.unique hm']

end Open

/-! ## The halves of a group as tokens -/

section Halves

variable {ts : List Token} {i j k : Nat}

theorem Mates.opening_get (h : Mates ts i j) : ∃ kind p, ts[i]? = some (.opening kind p) := by
  obtain ⟨before, inner, after, kind, p, q, rfl, _, rfl, rfl⟩ := h
  exact ⟨kind, p, by simp⟩

theorem Mates.closing_get (h : Mates ts i j) : ∃ kind q, ts[j]? = some (.closing kind q) := by
  obtain ⟨before, inner, after, kind, p, q, rfl, _, rfl, rfl⟩ := h
  refine ⟨kind, q, ?_⟩
  rw [Nat.add_assoc, List.getElem?_append_right (by omega), Nat.add_sub_cancel_left,
    Nat.add_comm 1, List.getElem?_cons_succ, List.getElem?_append_right (Nat.le_refl _),
    Nat.sub_self, List.getElem?_cons_zero]

theorem Mates.not_bar (h : Mates ts i j) : ¬ IsBar ts j := by
  rintro ⟨start, next, hbar⟩
  obtain ⟨kind, q, hclosing⟩ := h.closing_get
  cases hbar.symm.trans hclosing

theorem StopsAlternative.lt (h : StopsAlternative ts k j) (hk : IsBar ts k) : k < j := by
  rcases h.limit with ⟨hlt, -, -⟩ | ⟨o, hopen, hmates⟩
  · exact hlt
  · refine Nat.lt_of_not_le fun hle => ?_
    rcases Nat.lt_or_eq_of_le hle with hlt | rfl
    · exact hopen.isOpen.unclosed j hlt hmates
    · exact hmates.not_bar hk

/-- A bar is linked to one position at most. -/
theorem StopsAlternative.unique (h : StopsAlternative ts k i) (h' : StopsAlternative ts k j) :
    i = j := by
  have hle : ∀ {i j : Nat}, StopsAlternative ts k i → StopsAlternative ts k j → i ≤ j := by
    intro i j h h'
    refine Nat.le_of_not_lt fun hlt => ?_
    rcases h'.limit with ⟨hkj, hbar, hsame⟩ | ⟨o, hopen, hmates⟩
    · exact h.first j hkj hlt hbar hsame
    · -- The group is closed at `j`, so nothing behind `j` belongs to it.
      rcases h.limit with ⟨-, -, hsame⟩ | ⟨o', hopen', hmates'⟩
      · have hlater := (hsame.right (.inside hopen)).innermostOpen
        exact hlater.isOpen.unclosed j hlt hmates
      · obtain rfl := hopen.unique hopen'
        exact absurd (hmates.closing_unique hmates') (Nat.ne_of_lt hlt)
  exact Nat.le_antisymm (hle h h') (hle h' h)

end Halves

/-! ## Links up to a position -/

/-- The links of the token at `k` when the pass has come to `p`, given the token that stood
there before.

* The halves of a group that closes before `p` have each other.  The opening half of another
  group keeps the link that it had.
* A bar has the group that is open there, and what ends the alternative behind it, if that
  stands before `p`. -/
inductive LinkedUpTo (ts : List Token) (p k : Nat) : Token → Token → Prop
  | plain {token : Token} (h : token.isStructural = false) : LinkedUpTo ts p k token token
  | closed {kind : GroupKind} {q : Option Nat} {j : Nat} (hmates : Mates ts k j) (hj : j < p) :
      LinkedUpTo ts p k (.opening kind q) (.opening kind (some j))
  | unclosed {kind : GroupKind} {q : Option Nat} (h : ∀ j, j < p → ¬ Mates ts k j) :
      LinkedUpTo ts p k (.opening kind q) (.opening kind q)
  | closing {kind : GroupKind} {q : Option Nat} {i : Nat} (hmates : Mates ts i k) :
      LinkedUpTo ts p k (.closing kind q) (.closing kind (some i))
  | bar {start next start' next' : Option Nat} (hstart : OpenGroup ts k start')
      (hnext : ∀ m, next' = some m ↔ m < p ∧ StopsAlternative ts k m) :
      LinkedUpTo ts p k (.bar start next) (.bar start' next')

namespace LinkedUpTo

variable {ts : List Token} {p k : Nat} {old new : Token}

theorem unlinked_eq (h : LinkedUpTo ts p k old new) : new.unlinked = old.unlinked := by
  cases h <;> rfl

/-- Nothing changes for a token that `p` has nothing to do with. -/
theorem stay (h : LinkedUpTo ts p k old new) (hmates : ¬ Mates ts k p)
    (hstops : ∀ start next, old = .bar start next → ¬ StopsAlternative ts k p) :
    LinkedUpTo ts (p + 1) k old new := by
  cases h with
  | plain h => exact .plain h
  | closed hj hlt => exact .closed hj (Nat.lt_succ_of_lt hlt)
  | unclosed h =>
    refine .unclosed fun j hj => ?_
    rcases Nat.lt_succ_iff_lt_or_eq.1 hj with hj | rfl
    · exact h j hj
    · exact hmates
  | closing hi => exact .closing hi
  | bar hstart hnext =>
    refine .bar hstart fun m => (hnext m).trans ?_
    constructor
    · exact fun ⟨hm, h⟩ => ⟨Nat.lt_succ_of_lt hm, h⟩
    · rintro ⟨hm, h⟩
      rcases Nat.lt_succ_iff_lt_or_eq.1 hm with hm | rfl
      · exact ⟨hm, h⟩
      · exact absurd h (hstops _ _ rfl)

/-- The opening half of the group that closes at `p`. -/
theorem close (hold : ts[k]? = some old) (h : LinkedUpTo ts p k old new) (hmates : Mates ts k p) :
    LinkedUpTo ts (p + 1) k old (new.withPair p) := by
  obtain ⟨kind, q, hopening⟩ := hmates.opening_get
  obtain rfl := Option.some.inj (hold.symm.trans hopening)
  cases h with
  | plain h => cases h
  | closed _ _ => exact .closed hmates (Nat.lt_succ_self p)
  | unclosed _ => exact .closed hmates (Nat.lt_succ_self p)

/-- The bar whose alternative ends at `p`. -/
theorem chain (hold : ts[k]? = some old) (h : LinkedUpTo ts p k old new) (hk : IsBar ts k)
    (hstops : StopsAlternative ts k p) : LinkedUpTo ts (p + 1) k old (new.withNext p) := by
  obtain ⟨start, next, hbar⟩ := hk
  obtain rfl := Option.some.inj (hold.symm.trans hbar)
  cases h with
  | plain h => cases h
  | bar hstart _ =>
    refine .bar hstart fun m => ?_
    constructor
    · intro hm
      obtain rfl := Option.some.inj hm
      exact ⟨Nat.lt_succ_self _, hstops⟩
    · rintro ⟨-, hm⟩
      rw [hstops.unique hm]

/-- A token that is linked again has the links that it had. -/
theorem again {last : Token} (h : LinkedUpTo ts p k old new) (h' : LinkedUpTo ts p k new last) :
    last = new := by
  cases h with
  | plain h =>
    cases h' with
    | plain _ => rfl
    | closed _ _ | unclosed _ | closing _ | bar _ _ => cases h
  | closed hmates hj =>
    cases h' with
    | plain h => cases h
    | closed hmates' _ => rw [hmates.closing_unique hmates']
    | unclosed h => exact absurd hmates (h _ hj)
  | unclosed h =>
    cases h' with
    | plain h => cases h
    | closed hmates hj => exact absurd hmates (h _ hj)
    | unclosed _ => rfl
  | closing hmates =>
    cases h' with
    | plain h => cases h
    | closing hmates' => rw [hmates.opening_unique hmates']
  | bar hstart hnext =>
    cases h' with
    | plain h => cases h
    | bar hstart' hnext' =>
      rw [hstart.unique hstart', Option.ext fun m => (hnext m).trans (hnext' m).symm]

end LinkedUpTo

/-! ## Links do not matter for the groups -/

/-- A sequence that nests does so without its links. -/
theorem WellNested.unlinked (h : WellNested ts) : WellNested (ts.map Token.unlinked) := by
  obtain ⟨tree, htree⟩ := exists_tree h
  exact htree ▸ tree.wellNested_tokens

section Shape

variable {ts us : List Token} {i j k m o p : Nat} {group : Option Nat}
  (h : us.map Token.unlinked = ts.map Token.unlinked)

include h

theorem exists_opening_of_shape (hget : ∃ kind q, ts[o]? = some (.opening kind q)) :
    ∃ kind q, us[o]? = some (.opening kind q) := by
  obtain ⟨kind, q, hget⟩ := hget
  have hshape := congrArg (·[o]?) h
  simp only [List.getElem?_map, hget, Option.map_some] at hshape
  obtain ⟨token, htoken, hunlinked⟩ := Option.map_eq_some_iff.1 hshape
  obtain ⟨q', rfl⟩ := exists_opening_of_unlinked hunlinked
  exact ⟨kind, q', htoken⟩

theorem isBar_of_shape (hbar : IsBar ts k) : IsBar us k := by
  obtain ⟨start, next, hget⟩ := hbar
  have hshape := congrArg (·[k]?) h
  simp only [List.getElem?_map, hget, Option.map_some] at hshape
  obtain ⟨token, htoken, hunlinked⟩ := Option.map_eq_some_iff.1 hshape
  obtain ⟨start', next', rfl⟩ := exists_bar_of_unlinked hunlinked
  exact ⟨start', next', htoken⟩

theorem mates_of_shape (hmates : Mates ts i j) : Mates us i j := by
  obtain ⟨before, inner, after, kind, p, q, rfl, hinner, rfl, rfl⟩ := hmates
  simp only [List.map_append, List.map_cons, Token.unlinked] at h
  obtain ⟨before', region, rfl, hbefore, hregion⟩ := List.map_eq_append_iff.1 h
  obtain ⟨first, later, rfl, hfirst, hlater⟩ := List.map_eq_cons_iff.1 hregion
  obtain ⟨inner', others, rfl, hinner', hothers⟩ := List.map_eq_append_iff.1 hlater
  obtain ⟨last, after', rfl, hlast, -⟩ := List.map_eq_cons_iff.1 hothers
  obtain ⟨p', rfl⟩ := exists_opening_of_unlinked hfirst
  obtain ⟨q', rfl⟩ := exists_closing_of_unlinked hlast
  have hlength : before'.length = before.length := by simpa using congrArg List.length hbefore
  have hlength' : inner'.length = inner.length := by simpa using congrArg List.length hinner'
  exact ⟨before', inner', after', kind, p', q', rfl, hinner.unlinked.of_unlinked hinner',
    hlength.symm, by rw [hlength, hlength']⟩

theorem openAt_of_shape (hopen : OpenAt ts o p) : OpenAt us o p where
  before := hopen.before
  opening := exists_opening_of_shape h hopen.opening
  unclosed := fun c hc hmates => hopen.unclosed c hc (mates_of_shape h.symm hmates)

theorem innermostOpen_of_shape (hopen : InnermostOpen ts o p) : InnermostOpen us o p where
  isOpen := openAt_of_shape h hopen.isOpen
  innermost := fun o' ho' => hopen.innermost o' (openAt_of_shape h.symm ho')

theorem openGroup_of_shape (hgroup : OpenGroup ts k group) : OpenGroup us k group := by
  cases hgroup with
  | outside hnone => exact .outside fun o ho => hnone o (openAt_of_shape h.symm ho)
  | inside hopen => exact .inside (innermostOpen_of_shape h hopen)

theorem sameOpenGroup_of_shape (hsame : SameOpenGroup ts k m) : SameOpenGroup us k m := by
  obtain ⟨group, hk, hm⟩ := hsame
  exact ⟨group, openGroup_of_shape h hk, openGroup_of_shape h hm⟩

theorem stopsAlternative_of_shape (hstops : StopsAlternative ts k m) : StopsAlternative us k m := by
  refine ⟨?_, fun i hki him hbar hsame => ?_⟩
  · rcases hstops.limit with ⟨hlt, hbar, hsame⟩ | ⟨o, hopen, hmates⟩
    · exact Or.inl ⟨hlt, isBar_of_shape h hbar, sameOpenGroup_of_shape h hsame⟩
    · exact Or.inr ⟨o, innermostOpen_of_shape h hopen, mates_of_shape h hmates⟩
  · exact hstops.first i hki him (isBar_of_shape h.symm hbar) (sameOpenGroup_of_shape h.symm hsame)

theorem LinkedUpTo.of_shape {old new : Token} (hlinked : LinkedUpTo ts p k old new) :
    LinkedUpTo us p k old new := by
  cases hlinked with
  | plain hplain => exact .plain hplain
  | closed hmates hj => exact .closed (mates_of_shape h hmates) hj
  | unclosed hnone => exact .unclosed fun j hj hmates => hnone j hj (mates_of_shape h.symm hmates)
  | closing hmates => exact .closing (mates_of_shape h hmates)
  | bar hstart hnext =>
    refine .bar (openGroup_of_shape h hstart) fun m => (hnext m).trans ?_
    exact ⟨fun ⟨hm, hstops⟩ => ⟨hm, stopsAlternative_of_shape h hstops⟩,
      fun ⟨hm, hstops⟩ => ⟨hm, stopsAlternative_of_shape h.symm hstops⟩⟩

end Shape

end Synopsis
